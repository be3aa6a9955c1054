import Ownership.Proofs.Acceptance
import Ownership.Proofs.UseState

/-! # Overwrites that depend on the path

Whether an assignment overwrites a value is decided on what all paths to it agree on. Where one path
comes to it without a value in the target, the analysis does not ask whether the value that the
others bring may be overwritten. Those are the only overwrites it lets pass.
-/
namespace Ownership
open Std

def OwnershipState.Vacant (s : OwnershipState) : Prop := s = .uninitialized ∨ s = .moved

theorem OwnershipState.vacant_iff {s : OwnershipState} : s.Vacant ↔ s ≠ .owned ∧ s ≠ .dropped := by
  cases s <;> simp [Vacant]

theorem OwnershipState.Vacant.allowance {s : OwnershipState} (h : s.Vacant) :
    Touch.allowance s = 1 := by
  rcases h with rfl | rfl <;> rfl

namespace Function.Assignment
open Checker FlowState
variable {k : Checker} {f : Function} {r : Regions} {g : f.Assignment} {s s' j u u' : FlowState}
variable {es es' js : List Event} {vs vs' ws : List Violation}

def Overwrites (g : f.Assignment) (s : FlowState) : Prop :=
  s.stateOf g.target = .owned ∧
    ((∃ b, f.binding g.target = .ok b ∧ b.mutable = false) ∨ ∃ l ∈ s.loans, l.place = g.target)

def ReachedOn (g : f.Assignment) (k : Checker) (r : Regions) (path : List String) (es : List Event)
    (u : FlowState) : Prop :=
  ∃ s es₁ es₂ vs, k.Arrives f r (g.block.label :: path) s es₁ ∧ g.Reached k r s es₂ vs u ∧
    es = es₁ ++ es₂

theorem Overwrites.not_writable (h : g.Overwrites s) : ¬ (g.site k r).Writable s g.target := by
  intro hw
  rcases h.2 with ⟨b, hb, hmutable⟩ | ⟨l, hl, hplace⟩
  · obtain ⟨b', hb', hmutable'⟩ := hw.mutable
    cases hb.symm.trans hb'
    rw [hmutable] at hmutable'
    cases hmutable'
  · exact hw.unlent l hl hplace

/-- Two runs that come to the place have touched each binding in the same ways. -/
theorem Reached.paired {R : OwnershipState → OwnershipState → Prop}
    {C : List DiagnosticKind → List DiagnosticKind → Prop} (hR : Pairing R C) {x : String}
    (hs : R (s.stateOf x) (s'.stateOf x)) (h : g.Reached k r s es vs u)
    (h' : g.Reached k r s' es' vs' u') : R (u.stateOf x) (u'.stateOf x) := by
  obtain ⟨t, hops, hprep⟩ := h
  obtain ⟨t', hops', hprep'⟩ := h'
  have hstate := (applyOps_paired hR hs 0 g.before hops hops').1
  exact (hR.follows hstate (prepares_follows hprep) (prepares_follows hprep')).1

/-- A run that nothing is found on comes to the place with a state that is allowed for. -/
theorem Reached.covered (hcov : Covers j s) (hj : g.Reached k r j js [] u)
    (hjs : Event.found js = []) (h : g.Reached k r s es vs u') (hes : Event.found es = []) :
    Covers u u' := by
  obtain ⟨t, hops, hprep⟩ := hj
  obtain ⟨t', hops', hprep'⟩ := h
  rcases applyOps_covered 0 g.before hcov hops hjs hops'
    with ⟨-, hcov'⟩ | ⟨before, i, after, v, -, hhead, -⟩
  · exact (prepares_covered hcov' hprep hprep').2
  · rw [hes] at hhead
    cases hhead

theorem exists_reachedOn (g : f.Assignment) (ht : k.TypesGrounded f)
    (hf : f.Fits k.types (k.signaturesFor f)) {path : List String}
    (hpath : f.IsPath (g.block.label :: path)) :
    ∃ s es es' vs u, k.Arrives f r (g.block.label :: path) s es ∧ g.Reached k r s es' vs u := by
  obtain ⟨s, es, t, es', harrives, hrun⟩ := exists_run (r := r) ht hf hpath
  obtain ⟨es₁, vs, u, _, _, _, _, hreached, -⟩ := g.transferBlock_inv hrun
  exact ⟨s, es, es₁, vs, u, harrives, hreached⟩

section Solved
variable {a : Analysis} {path : List String} (ht : k.TypesGrounded f)
    (hf : f.Fits k.types (k.signaturesFor f))
variable (hreal : ∀ l s, a.inStates[l]? = some s → k.Realised f r l s)
include ht hf hreal

/-- What the analysis takes the target to be is what it is on some path. -/
theorem exists_reachedOn_stateOf (hj : a.inStates[g.block.label]? = some j)
    (h : g.Reached k r j js ws u) :
    ∃ path es u', g.ReachedOn k r path es u' ∧ u'.stateOf g.target = u.stateOf g.target := by
  obtain ⟨path, hpath, hstate⟩ := hreal _ j hj g.target
  obtain ⟨s, es, es', vs, u', harrives, hreached⟩ := g.exists_reachedOn (r := r) ht hf hpath
  have hsame := hreached.paired pairing_eq (hstate s es harrives) h
  exact ⟨path, es ++ es', u', ⟨s, es, es', vs, harrives, hreached, rfl⟩, hsame⟩

/-- An overwrite that is let pass has an excuse: on another path the target has no value. -/
theorem excused_of_accepted (ha : a.Solves k f r) (hd : k.diagnose a = .ok [])
    (h : g.ReachedOn k r path es u) (hes : Event.found es = []) (hover : g.Overwrites u) :
    ∃ path' es' u', g.ReachedOn k r path' es' u' ∧ (u'.stateOf g.target).Vacant := by
  obtain ⟨s, es₁, es₂, vs, harrives, hreached, rfl⟩ := h
  rw [Event.found_append] at hes
  obtain ⟨hes₁, hes₂⟩ := List.append_eq_nil_iff.mp hes
  have hclean := found_eq_nil_of_accepted ha hf hd
  rcases harrives.covered ha hclean with ⟨-, j, hj, hcov⟩ | ⟨location, v, hhead, -⟩
  · obtain ⟨t, js, hrun, -⟩ := ha.result _ j hj
    obtain ⟨js₁, ws, uj, refused, w, e, js₂, hreachedj, hgive, hjs, he⟩ := g.transferBlock_inv hrun
    have hnone := Event.found_eq_nil.mp (hclean _ j t js hj hrun)
    rw [hjs] at hnone
    have hjs₁ : Event.found js₁ = [] :=
      Event.found_eq_nil.mpr fun e₀ he₀ => hnone e₀ (List.mem_append_left _ he₀)
    have he₀ : ws ++ refused.toList = [] := he.symm.trans (hnone e (by simp))
    obtain ⟨rfl, hrefused⟩ := List.append_eq_nil_iff.mp he₀
    cases Option.toList_eq_nil_iff.mp hrefused
    obtain ⟨hdropped, hwritable, -⟩ := Site.store_none_iff.mp hgive
    -- a value that the analysis lets be overwritten could be overwritten on the path too
    have howned : uj.stateOf g.target ≠ .owned := by
      intro howned
      have hcov' := hreachedj.covered hcov hjs₁ hreached hes₂
      exact hover.not_writable ((hwritable howned).covered hcov')
    obtain ⟨path', es', u', hon, hstate⟩ := exists_reachedOn_stateOf ht hf hreal hj hreachedj
    exact ⟨path', es', u', hon,
      by rw [hstate]; exact OwnershipState.vacant_iff.mpr ⟨howned, hdropped⟩⟩
  · rw [hes₁] at hhead
    cases hhead

/-- Where the target has no value on one path and is gone on none, the analysis does not ask whether
it may be overwritten. -/
theorem unasked_of_vacant (ha : a.Solves k f r) (h : g.ReachedOn k r path es u)
    (hvacant : (u.stateOf g.target).Vacant)
    (hstays : ∀ path' es' u', g.ReachedOn k r path' es' u' → u'.stateOf g.target ≠ .dropped) :
    ∃ j js ws uj w, a.inStates[g.block.label]? = some j ∧ g.Reached k r j js ws uj ∧
      (uj.stateOf g.target).Vacant ∧ (g.give k r).run uj = .ok none w := by
  obtain ⟨s, es₁, es₂, vs, harrives, hreached, rfl⟩ := h
  obtain ⟨j, hj, hle⟩ := harrives.allowance_le ha
  obtain ⟨t, js, hrun, -⟩ := ha.result _ j hj
  obtain ⟨js₁, ws, uj, refused, w, e, js₂, hreachedj, hgive, -, -⟩ := g.transferBlock_inv hrun
  have hallowance := hreached.paired pairing_allowance (hle g.target) hreachedj
  rw [hvacant.allowance] at hallowance
  have howned : uj.stateOf g.target ≠ .owned := by
    intro howned
    rw [howned] at hallowance
    exact absurd hallowance (by decide)
  have hdropped : uj.stateOf g.target ≠ .dropped := by
    obtain ⟨path', es', u', hon, hstate⟩ := exists_reachedOn_stateOf ht hf hreal hj hreachedj
    rw [← hstate]
    exact hstays path' es' u' hon
  refine ⟨j, js₁, ws, uj, w, hj, hreachedj, OwnershipState.vacant_iff.mpr ⟨howned, hdropped⟩, ?_⟩
  cases refused with
  | none => exact hgive
  | some v =>
    rcases (Site.store_some_inv hgive).2 with ⟨hgone, -⟩ | ⟨hhas, -⟩
    · exact absurd hgone hdropped
    · exact absurd hhas howned

end Solved

end Function.Assignment

namespace Checker
variable {k : Checker} {f : Function} {r : Regions}

/-- Say that a run along a path, with nothing found on it before, comes to an assignment whose
target has a value and is immutable or lent. Then something is reported about the function, unless
some path comes to this assignment with no value in its target. If one does, and on none the target
is gone, then the analysis gives the target its value there as one that has none, and does not ask
whether it may be overwritten. -/
theorem overwrite_reported_or_excused
    (hf : WellFormed.checkFunction f k.types (k.signaturesFor f) = .ok ())
    (hr : Regions.compute f k.types k.policy = .ok r) (ht : k.TypesGrounded f) :
    ∃ a report, k.analyze f = .ok a ∧ k.checkFunction f = .ok report ∧ ∀ g : f.Assignment,
      (∀ path es u, g.ReachedOn k r path es u → Event.found es = [] → g.Overwrites u →
        report.diagnostics ≠ [] ∨
          ∃ path' es' u', g.ReachedOn k r path' es' u' ∧ (u'.stateOf g.target).Vacant) ∧
      ∀ path es u, g.ReachedOn k r path es u → (u.stateOf g.target).Vacant →
        (∀ path' es' u', g.ReachedOn k r path' es' u' → u'.stateOf g.target ≠ .dropped) →
        ∃ j js ws uj w, a.inStates[g.block.label]? = some j ∧ g.Reached k r j js ws uj ∧
          (uj.stateOf g.target).Vacant ∧ (g.give k r).run uj = .ok none w := by
  have hfits := WellFormed.checkFunction_inv hf
  obtain ⟨a, ds, ha, hd, hreport⟩ := exists_report hf hr ht
  have hsolves := analyze_solves hf hr ha
  have hreal : ∀ l s, a.inStates[l]? = some s → k.Realised f r l s :=
    fun l s hs => analyze_invariant hf hr realised_invariant ha hs
  refine ⟨a, _, ha, hreport, fun g => ⟨?_, ?_⟩⟩
  · intro path es u h hes hover
    cases ds with
    | nil => exact Or.inr (g.excused_of_accepted ht hfits hreal hsolves hd h hes hover)
    | cons d ds => exact Or.inl (List.cons_ne_nil d ds)
  · intro path es u h hvacant hstays
    exact g.unasked_of_vacant ht hfits hreal hsolves h hvacant hstays

end Checker

/-- A number is lent on one of two paths, and gets a value where they meet while the loan is still
needed. -/
def Function.lentOnOnePath : Function :=
  ofParts "lentOnOnePath"
    [{ name := "x", type := 1, mutable := true }, { name := "y", type := 1 },
      { name := "r", type := 2 }]
    [{ label := "entry",
       body := [{ op := .declare "x" }, { op := .declare "y" }, { op := .init "y" none }],
       ending := some { terminator := .branch "lend" "skip" none } },
     { label := "lend", body := [{ op := .init "x" none }, { op := .borrow "x" .shared "r" }],
       ending := some { terminator := .jump "meet" } },
     { label := "skip", body := [{ op := .borrow "y" .shared "r" }],
       ending := some { terminator := .jump "meet" } },
     { label := "meet", body := [{ op := .init "x" none }, { op := .use "r" }],
       ending := some { terminator := .ret none } }]

def Function.lentOnOnePathMeet : Function.lentOnOnePath.Assignment where
  block :=
    { label := "meet", body := [{ op := .init "x" none }, { op := .use "r" }],
      ending := some { terminator := .ret none } }
  before := []
  instruction := { op := .init "x" none }
  after := [{ op := .use "r" }]
  target := "x"
  block_eq := rfl
  body_eq := rfl
  target_eq := rfl

namespace Checker

theorem lentOnOnePath_wellFormed :
    WellFormed.checkFunction .lentOnOnePath basic.types (basic.signaturesFor .lentOnOnePath) =
      .ok () := by decide

theorem lentOnOnePath_typesGrounded : basic.TypesGrounded .lentOnOnePath :=
  typesGrounded_basic (by decide) ⟨rfl, rfl⟩

/-- The run comes to where the paths meet with nothing found, and there it would overwrite the lent
number. -/
theorem lentOnOnePath_overwrites :
    ∃ r es u, Regions.compute .lentOnOnePath .basic .lastUse = .ok r ∧
    Function.lentOnOnePathMeet.ReachedOn basic r ["lend", "entry"] es u ∧ Event.found es = [] ∧
    Function.lentOnOnePathMeet.Overwrites u := by
  have hrun : (do
      let r ← Regions.compute .lentOnOnePath .basic .lastUse
      let run ← basic.follow .lentOnOnePath r ["meet", "lend", "entry"]
      return (Event.found run.2 = [] ∧ run.1.stateOf "x" = .owned ∧
        run.1.loans.toList.any (·.1.place == "x") : Bool) :
        Except Fault Bool) = .ok true := by decide +kernel
  obtain ⟨r, hr, hrun⟩ := Except.bind_inv hrun
  obtain ⟨⟨s, es⟩, hfollow, hrun⟩ := Except.bind_inv hrun
  obtain ⟨hes, howned, hlent⟩ := of_decide_eq_true (Except.ok.inj hrun)
  obtain ⟨e, he, hplace⟩ := List.any_eq_true.mp hlent
  have hpath : Function.lentOnOnePath.IsPath ["meet", "lend", "entry"] :=
    ((Function.IsPath.singleton rfl).cons ⟨_, rfl, by decide⟩).cons ⟨_, rfl, by decide⟩
  have harrives := arrives_iff_follow.mpr ⟨hpath, hfollow⟩
  refine ⟨r, es, s, hr, ⟨s, es, [], [], harrives, ⟨s, rfl, rfl, rfl⟩, by simp⟩, hes,
    howned, Or.inr ?_⟩
  exact ⟨e.1, Loans.mem_of_mem_toList he, eq_of_beq hplace⟩

theorem lentOnOnePath_accepted :
    ∃ report, basic.checkFunction .lentOnOnePath = .ok report ∧ report.diagnostics = [] := by
  have hcheck : (do return (← basic.checkFunction .lentOnOnePath).diagnostics =
      [] : Except Fault Bool) = .ok true := by
    decide +kernel
  obtain ⟨report, hreport, hnone⟩ := Except.bind_inv hcheck
  exact ⟨report, hreport, of_decide_eq_true (Except.ok.inj hnone)⟩

/-- On no path to where the others meet the number is gone. -/
theorem lentOnOnePath_stays {r : Regions} {a : Analysis}
    (hr : Regions.compute .lentOnOnePath .basic .lastUse = .ok r)
    (ha : basic.analyze .lentOnOnePath = .ok a) {path : List String} {es : List Event}
    {u : FlowState}
    (h : Function.lentOnOnePathMeet.ReachedOn basic r path es u) : u.stateOf "x" ≠ .dropped := by
  have hstates : (do
      let a ← basic.analyze .lentOnOnePath
      return (a.inStates["meet"]?).map (·.stateOf "x") : Except Fault (Option OwnershipState)) =
        .ok (some .uninitialized) := by decide +kernel
  obtain ⟨a', ha', hstates⟩ := Except.bind_inv hstates
  cases ha.symm.trans ha'
  obtain ⟨j, hj, hstate⟩ := Option.map_eq_some_iff.mp (Except.ok.inj hstates)
  obtain ⟨s, es₁, es₂, vs, harrives, ⟨t, hops, -, rfl⟩, -⟩ := h
  obtain ⟨-, rfl⟩ := applyOps_nil_iff.mp hops
  obtain ⟨j', hj', hle⟩ := harrives.allowance_le (analyze_solves lentOnOnePath_wellFormed hr ha)
  cases hj.symm.trans hj'
  have hx := hle "x"
  intro hgone
  rw [hstate, hgone] at hx
  exact absurd hx (by decide)

/-- The lent number is overwritten on a path on which nothing was found before, and nothing is
reported. -/
theorem overwrite_unreported_lentOnOnePath : ∃ (r : Regions) (report : FunctionReport)
    (g : Function.lentOnOnePath.Assignment) (path : List String) (es : List Event) (u : FlowState),
    WellFormed.checkFunction .lentOnOnePath basic.types
      (basic.signaturesFor .lentOnOnePath) = .ok () ∧
    Regions.compute .lentOnOnePath .basic .lastUse = .ok r ∧
    basic.checkFunction .lentOnOnePath = .ok report ∧
    report.diagnostics = [] ∧ g.ReachedOn basic r path es u ∧ Event.found es = [] ∧
    g.Overwrites u := by
  obtain ⟨r, es, u, hr, hon, hes, hover⟩ := lentOnOnePath_overwrites
  obtain ⟨report, hreport, hnone⟩ := lentOnOnePath_accepted
  exact ⟨r, report, _, _, es, u, lentOnOnePath_wellFormed, hr, hreport, hnone, hon, hes, hover⟩

/-- The overwrite is excused by the path that brings no value, and so the analysis does not ask. -/
theorem overwrite_excused_lentOnOnePath :
    ∃ (r : Regions) (a : Analysis) (es es' : List Event) (path : List String)
    (u u' j uj w : FlowState) (js : List Event) (ws : List Violation),
    Regions.compute .lentOnOnePath .basic .lastUse = .ok r ∧ basic.analyze .lentOnOnePath = .ok a ∧
    Function.lentOnOnePathMeet.ReachedOn basic r ["lend", "entry"] es u ∧ Event.found es = [] ∧
    Function.lentOnOnePathMeet.Overwrites u ∧
    Function.lentOnOnePathMeet.ReachedOn basic r path es' u' ∧ (u'.stateOf "x").Vacant ∧
    a.inStates["meet"]? = some j ∧ Function.lentOnOnePathMeet.Reached basic r j js ws uj ∧
    (uj.stateOf "x").Vacant ∧
    (Function.lentOnOnePathMeet.give basic r).run uj = .ok none w := by
  obtain ⟨r, es, u, hr, hon, hes, hover⟩ := lentOnOnePath_overwrites
  obtain ⟨report', hreport', hnone⟩ := lentOnOnePath_accepted
  obtain ⟨a, report, ha, hreport, hall⟩ :=
    overwrite_reported_or_excused lentOnOnePath_wellFormed hr lentOnOnePath_typesGrounded
  cases hreport.symm.trans hreport'
  obtain ⟨hreported, hunasked⟩ := hall Function.lentOnOnePathMeet
  obtain ⟨path, es', u', hon', hvacant⟩ :=
    (hreported _ es u hon hes hover).resolve_left (not_not_intro hnone)
  obtain ⟨j, js, ws, uj, w, hj, hreached, hopen, hgive⟩ :=
    hunasked path es' u' hon' hvacant fun _ _ _ h => lentOnOnePath_stays hr ha h
  exact ⟨r, a, es, es', path, u, u', j, uj, w, js, ws, hr, ha, hon, hes, hover, hon', hvacant, hj,
    hreached, hopen, hgive⟩

end Checker

end Ownership

import Ownership.Proofs.Report
import Ownership.Proofs.Touch

/-! # Complaints about the state of a binding are exact

For one binding, what the analysis knows on entry to a block is what some path leads to, although
blocks are not monotone and joins keep what earlier visits have found. Each complaint that is
reported is found on a path. Conversely a path that gives cause for one leads to a block for which
one is reported: joining can only make a binding be allowed less.
-/
namespace Ownership
open Std

namespace Checker
variable {k : Checker} {f : Function} {r : Regions} {b : Block} {l x : String} {path : List String}
variable {s s' t t' : FlowState} {es es' : List Event}

theorem applyInstruction_follows {c : Site} {i : Instruction} {e : Event}
    (h : (k.applyInstruction r c i).run s = .ok e t) :
    Follows (k.trace c i.op) s e.violations t ∧ e.location = c.location := by
  obtain ⟨vs, u, hop, rfl, rfl⟩ := applyInstruction_iff.mp h
  exact ⟨(applyOp_follows hop).then_same fun _ => rfl, rfl⟩

theorem applyEnding_follows {c : Site} {ending : Option Ending} {e : Event}
    (h : (applyEnding r c ending).run s = .ok e t) :
    Follows (endingTrace c (ending.map Ending.terminator)) s e.violations t ∧
    e.location = c.location := by
  obtain ⟨vs, u, hterm, rfl, rfl⟩ := applyEnding_iff.mp h
  exact ⟨(applyTerminator_follows hterm).then_same fun _ => rfl, rfl⟩

structure Pairing (R : OwnershipState → OwnershipState → Prop)
    (C : List DiagnosticKind → List DiagnosticKind → Prop) : Prop where
  run : ∀ (as : List Touch) a b, R a b → R (Touch.run as a) (Touch.run as b)
  faults : ∀ (as : List Touch) a b, R a b → C (Touch.faults as a) (Touch.faults as b)

section Paired
variable {R : OwnershipState → OwnershipState → Prop}
    {C : List DiagnosticKind → List DiagnosticKind → Prop}

theorem Pairing.follows (hR : Pairing R C) (h : R (s.stateOf x) (s'.stateOf x)) {tr : Trace}
    {vs vs' : List Violation} (hrun : Follows tr s vs t) (hrun' : Follows tr s' vs' t') :
    R (t.stateOf x) (t'.stateOf x) ∧
    C (Violation.complaints vs x) (Violation.complaints vs' x) := by
  rw [hrun.state, hrun'.state, hrun.complaints, hrun'.complaints]
  exact ⟨hR.run _ _ _ h, hR.faults _ _ _ h⟩

/-- Two runs touch each binding in the same ways at the same points. -/
theorem applyOps_paired (hR : Pairing R C) (h : R (s.stateOf x) (s'.stateOf x)) (n : Int)
    (ops : List Instruction) (hrun : (k.applyOps f r b n ops).run s = .ok es t)
    (hrun' : (k.applyOps f r b n ops).run s' = .ok es' t') :
    R (t.stateOf x) (t'.stateOf x) ∧ ∀ e ∈ es, ∃ e' ∈ es', e'.location = e.location ∧
      C (Violation.complaints e.violations x) (Violation.complaints e'.violations x) := by
  induction ops generalizing n s s' es es' with
  | nil =>
    obtain ⟨rfl, rfl⟩ := applyOps_nil_iff.mp hrun
    obtain ⟨rfl, rfl⟩ := applyOps_nil_iff.mp hrun'
    exact ⟨h, by simp⟩
  | cons i ops ih =>
    obtain ⟨e, u, es, he, hrest, rfl⟩ := applyOps_cons_iff.mp hrun
    obtain ⟨e', u', es', he', hrest', rfl⟩ := applyOps_cons_iff.mp hrun'
    obtain ⟨hf, hloc⟩ := applyInstruction_follows he
    obtain ⟨hf', hloc'⟩ := applyInstruction_follows he'
    obtain ⟨hstate, hvs⟩ := hR.follows h hf hf'
    obtain ⟨hlast, hlater⟩ := ih hstate (n + 1) hrest hrest'
    refine ⟨hlast, List.forall_mem_cons.mpr
      ⟨⟨e', by simp, hloc'.trans hloc.symm, hvs⟩, fun e₀ he₀ => ?_⟩⟩
    obtain ⟨e₁, he₁, hmatch⟩ := hlater e₀ he₀
    exact ⟨e₁, by simp [he₁], hmatch⟩

theorem transferBlock_paired (hR : Pairing R C) (h : R (s.stateOf x) (s'.stateOf x))
    (hrun : k.transferBlock f r l s = .ok (t, es))
    (hrun' : k.transferBlock f r l s' = .ok (t', es')) :
    R (t.stateOf x) (t'.stateOf x) ∧ ∀ e ∈ es, ∃ e' ∈ es', e'.location = e.location ∧
      C (Violation.complaints e.violations x) (Violation.complaints e'.violations x) := by
  obtain ⟨b, es, u, e, hb, hops, hend, rfl⟩ := transferBlock_ops_iff.mp hrun
  obtain ⟨b', es', u', e', hb', hops', hend', rfl⟩ := transferBlock_ops_iff.mp hrun'
  cases hb.symm.trans hb'
  obtain ⟨hstate, hevents⟩ := applyOps_paired hR h 0 b.body hops hops'
  obtain ⟨hf, hloc⟩ := applyEnding_follows hend
  obtain ⟨hf', hloc'⟩ := applyEnding_follows hend'
  obtain ⟨hlast, hvs⟩ := hR.follows hstate hf hf'
  refine ⟨hlast, fun e₀ he₀ => ?_⟩
  rcases List.mem_append.mp he₀ with he₀ | he₀
  · obtain ⟨e₁, he₁, hmatch⟩ := hevents e₀ he₀
    exact ⟨e₁, List.mem_append_left _ he₁, hmatch⟩
  · rw [List.mem_singleton.mp he₀]
    exact ⟨e', by simp, hloc'.trans hloc.symm, hvs⟩

end Paired

/-- The same state leads to the same complaints. -/
theorem pairing_eq : Pairing (· = ·) (· = ·) where
  run _ _ _ h := by rw [h]
  faults _ _ _ h := by rw [h]

/-- A state that is allowed less leads to a complaint where one that is allowed more does. -/
theorem pairing_allowance :
    Pairing (fun a b => Touch.allowance b ≤ Touch.allowance a)
      (fun ks ks' => ks ≠ [] → ks' ≠ []) where
  run as _ _ h := Touch.allowance_run_le as h
  faults as _ _ h := Touch.faults_ne_nil as h

theorem applyOps_location (n : Int) (ops : List Instruction)
    (h : (k.applyOps f r b n ops).run s = .ok es t) : ∀ e ∈ es, e.location.block = b.label := by
  induction ops generalizing n s es with
  | nil =>
    obtain ⟨rfl, rfl⟩ := applyOps_nil_iff.mp h
    simp
  | cons i ops ih =>
    obtain ⟨e, u, es, he, hrest, rfl⟩ := applyOps_cons_iff.mp h
    refine List.forall_mem_cons.mpr ⟨?_, ih (n + 1) hrest⟩
    rw [(applyInstruction_follows he).2]
    rfl

theorem transferBlock_location (h : k.transferBlock f r l s = .ok (t, es)) :
    ∀ e ∈ es, e.location.block = l := by
  obtain ⟨b, es, u, e, hb, hops, hend, rfl⟩ := transferBlock_ops_iff.mp h
  have hname : b.label = l := Registry.name_of_get?_eq_some hb
  rw [← hname]
  refine List.forall_mem_append.mpr ⟨applyOps_location 0 b.body hops, fun e₀ he₀ => ?_⟩
  rw [List.mem_singleton.mp he₀, (applyEnding_follows hend).2]
  rfl

/-- Each binding has on some path the state that a joined state gives it. -/
def Realised (k : Checker) (f : Function) (r : Regions) (l : String) (s : FlowState) : Prop :=
  ∀ x, ∃ path, f.IsPath (l :: path) ∧ ∀ u es, k.Arrives f r (l :: path) u es →
    u.stateOf x = s.stateOf x

/-- What the analysis knows of one binding is what some path leads to. -/
theorem realised_invariant : k.Invariant f r (k.Realised f r) where
  entry l s hl hs x := by
    refine ⟨[], .singleton hl, fun u es harrives => ?_⟩
    cases harrives with
    | start _ hu => rw [Except.ok.inj (hu.symm.trans hs)]
  step l s t es m h hrun hm x := by
    obtain ⟨path, hpath, hstate⟩ := h x
    refine ⟨l :: path, hpath.cons hm, fun u us harrives => ?_⟩
    cases harrives with
    | step harrives hrun' =>
      exact (transferBlock_paired pairing_eq (hstate _ _ harrives) hrun' hrun).1
  merge l s t hs ht x := by
    -- two states meet in one of them, so the path that leads to this one will do
    rcases OwnershipState.meet_eq_or (s.stateOf x) (t.stateOf x) with hmeet | hmeet
    · obtain ⟨path, hpath, hstate⟩ := hs x
      exact ⟨path, hpath, fun u es h => by rw [FlowState.stateOf_merge, hmeet, hstate u es h]⟩
    · obtain ⟨path, hpath, hstate⟩ := ht x
      exact ⟨path, hpath, fun u es h => by rw [FlowState.stateOf_merge, hmeet, hstate u es h]⟩

/-- The analysis allows each binding no more than any path does. -/
theorem Arrives.allowance_le {a : Analysis} (ha : a.Solves k f r)
    (h : k.Arrives f r (l :: path) s es) :
    ∃ j, a.inStates[l]? = some j ∧
      ∀ x, Touch.allowance (j.stateOf x) ≤ Touch.allowance (s.stateOf x) := by
  have hbelow : ∀ {j u : FlowState}, (j.merge u).agrees j = true →
      ∀ x, Touch.allowance (j.stateOf x) ≤ Touch.allowance (u.stateOf x) :=
    fun hmerge x => Touch.allowance_le_of_rank_le ((FlowState.merge_agrees_iff.mp hmerge).states x)
  generalize hp : l :: path = p at h
  induction h generalizing l path with
  | start hl hs =>
    cases hp
    obtain ⟨j, hj, habsorbs⟩ := ha.entry _ _ hl hs
    exact ⟨j, hj, hbelow habsorbs⟩
  | @step l m path s t es es' _ hrun hm ih =>
    cases hp
    obtain ⟨j, hj, hle⟩ := ih rfl
    obtain ⟨tj, js, hrunj, hout⟩ := ha.result l j hj
    obtain ⟨u, hu, habsorbs⟩ := ha.edge l m tj hout hm
    refine ⟨u, hu, fun x => ?_⟩
    have hblock := (transferBlock_paired pairing_allowance (hle x) hrun hrunj).1
    exact Nat.le_trans (hbelow habsorbs x) hblock

section Solved
variable {a : Analysis} {ds : List Diagnostic} (ha : a.Solves k f r)
    (hf : f.Fits k.types (k.signaturesFor f))
variable (hd : k.diagnose a = .ok ds)
include ha hf hd

/-- A complaint that is reported is found on a path. -/
theorem exists_path_of_mem_diagnose (hreal : ∀ l s, a.inStates[l]? = some s → k.Realised f r l s)
    {d : Diagnostic} (hmem : d ∈ ds) (huse : d.kind.isUseState = true) :
    ∃ l path, f.IsPath (l :: path) ∧
      ∀ s es t es', k.Arrives f r (l :: path) s es → k.transferBlock f r l s = .ok (t, es') →
        ∃ e ∈ es', ∃ v ∈ e.violations, v.kind = d.kind ∧ d.subject = some v.subject ∧
          d.location = some e.location := by
  obtain ⟨l, j, tj, js, hj, hrunj, hmem⟩ := (mem_diagnose ha hf hd).mp hmem
  obtain ⟨ej, hej, v, hv, rfl⟩ := Event.diagnostics_inv hmem
  obtain ⟨path, hpath, hstate⟩ := hreal l j hj v.subject
  refine ⟨l, path, hpath, fun s es t es' harrives hrun => ?_⟩
  obtain ⟨-, hevents⟩ := transferBlock_paired pairing_eq (hstate s es harrives).symm hrunj hrun
  obtain ⟨e, he, hloc, hsame⟩ := hevents ej hej
  have hkind : v.kind ∈ Violation.complaints e.violations v.subject := by
    rw [← hsame]
    exact Violation.mem_complaints.mpr ⟨v, hv, huse, rfl, rfl⟩
  obtain ⟨w, hw, -, hsubject, hkind⟩ := Violation.mem_complaints.mp hkind
  exact ⟨e, he, w, hw, hkind, congrArg some hsubject.symm, congrArg some hloc.symm⟩

/-- A complaint found on a path leads to one that is reported for the block. -/
theorem exists_diagnostic_of_arrives (harrives : k.Arrives f r (l :: path) s es)
    (hrun : k.transferBlock f r l s = .ok (t, es')) {e : Event} (he : e ∈ es') {v : Violation}
    (hv : v ∈ e.violations) (huse : v.kind.isUseState = true) :
    ∃ d ∈ ds, d.kind.isUseState = true ∧ d.subject = some v.subject ∧
      ∃ location, d.location = some location ∧ location.block = l := by
  obtain ⟨j, hj, hle⟩ := harrives.allowance_le ha
  obtain ⟨tj, js, hrunj, -⟩ := ha.result l j hj
  obtain ⟨-, hevents⟩ := transferBlock_paired pairing_allowance (hle v.subject) hrun hrunj
  obtain ⟨ej, hej, -, hcomplains⟩ := hevents e he
  -- the joined state need not lead to the same kind of complaint, only to one
  have hfound : Violation.complaints ej.violations v.subject ≠ [] :=
    hcomplains (List.ne_nil_of_mem (Violation.mem_complaints.mpr ⟨v, hv, huse, rfl, rfl⟩))
  obtain ⟨kind, hkind⟩ := List.exists_mem_of_ne_nil _ hfound
  obtain ⟨w, hw, hwuse, hwsubject, -⟩ := Violation.mem_complaints.mp hkind
  have hreport : ∀ e₀ ∈ js, ∀ w₀ : Violation, w₀.kind.isUseState = true → w₀.subject = v.subject →
      w₀.diagnostic e₀.location e₀.span ∈ Event.diagnostics js ∅ →
      ∃ d ∈ ds, d.kind.isUseState = true ∧ d.subject = some v.subject ∧
        ∃ location, d.location = some location ∧ location.block = l := by
    intro e₀ he₀ w₀ huse₀ hsubject₀ hmem
    refine ⟨_, (mem_diagnose ha hf hd).mpr ⟨l, j, tj, js, hj, hrunj, hmem⟩, huse₀,
      congrArg some hsubject₀, ?_⟩
    exact ⟨e₀.location, rfl, transferBlock_location hrunj e₀ he₀⟩
  rcases Event.diagnostics_complete ∅ hej hw
    with hmem | ⟨-, hx | ⟨e₀, he₀, w₀, -, huse₀, hsubject₀, hmem⟩⟩
  · exact hreport ej hej w hwuse hwsubject hmem
  · exact absurd hx ExtTreeSet.not_mem_empty
  · exact hreport e₀ he₀ w₀ huse₀ (hsubject₀.trans hwsubject) hmem

end Solved

/-- Diagnostics about the state of a binding are exact, where the types are there with all they are
made of: there is a report, and every path has a run. Each diagnostic is found in a run along some
path, of the same kind, about the same binding and at the same point. If in some run a point of a
block finds one, then one about the same binding is reported in that block, whatever the types. -/
theorem useState_diagnostics_exact
    (hf : WellFormed.checkFunction f k.types (k.signaturesFor f) = .ok ())
    (hr : Regions.compute f k.types k.policy = .ok r) :
    (k.TypesGrounded f →
      (∃ visits blocks ds, k.checkFunction f = .ok ⟨f.name, .analysed visits blocks ds⟩) ∧
      ∀ l path, f.IsPath (l :: path) →
        ∃ s es t es', k.Arrives f r (l :: path) s es ∧ k.transferBlock f r l s = .ok (t, es')) ∧
    ∀ visits blocks ds, k.checkFunction f = .ok ⟨f.name, .analysed visits blocks ds⟩ →
      (k.TypesGrounded f → ∀ d ∈ ds, d.kind.isUseState = true →
        ∃ l path s es t es', k.Arrives f r (l :: path) s es ∧
          k.transferBlock f r l s = .ok (t, es') ∧
          ∃ e ∈ es', ∃ v ∈ e.violations, v.kind = d.kind ∧ d.subject = some v.subject ∧
            d.location = some e.location) ∧
      ∀ l path s es t es', k.Arrives f r (l :: path) s es → k.transferBlock f r l s = .ok (t, es') →
        ∀ e ∈ es', ∀ v ∈ e.violations, v.kind.isUseState = true →
          ∃ d ∈ ds, d.kind.isUseState = true ∧ d.subject = some v.subject ∧
            ∃ location, d.location = some location ∧ location.block = l := by
  have hfits := WellFormed.checkFunction_inv hf
  refine ⟨fun ht => ⟨?_, fun l path hpath => exists_run ht hfits hpath⟩,
    fun visits blocks ds hreport => ?_⟩
  · obtain ⟨a, ds, -, -, hreport⟩ := exists_report hf hr ht
    exact ⟨_, _, ds, hreport⟩
  · rcases checkFunction_inv hreport with ⟨problem, hmalformed⟩ | ⟨a, ds', ha, hd, heq⟩
    · cases hmalformed
    · cases heq
      have hsolves := analyze_solves hf hr ha
      refine ⟨fun ht d hmem huse => ?_, fun l path s es t es' harrives hrun e he v hv huse => ?_⟩
      · obtain ⟨l, path, hpath, hsame⟩ := exists_path_of_mem_diagnose hsolves hfits hd
          (fun l s hs => analyze_invariant hf hr realised_invariant ha hs) hmem huse
        obtain ⟨s, es, t, es', harrives, hrun⟩ := exists_run ht hfits hpath
        exact ⟨l, path, s, es, t, es', harrives, hrun, hsame s es t es' harrives hrun⟩
      · exact exists_diagnostic_of_arrives hsolves hfits hd harrives hrun he hv huse

end Checker

def Function.movingLoop : Function :=
  ofParts "movingLoop" [{ name := "x", type := 3 }, { name := "y", type := 3, mutable := true }]
    [{ label := "entry",
       body := [{ op := .declare "x" }, { op := .declare "y" }, { op := .init "x" none }],
       ending := some { terminator := .jump "head" } },
     { label := "head", body := [{ op := .move "y" "x" }],
       ending := some { terminator := .branch "head" "done" none } },
     { label := "done", ending := some { terminator := .ret none } }]

namespace Checker

theorem movingLoop_isPath : Function.movingLoop.IsPath ["head", "head", "entry"] :=
  ((Function.IsPath.singleton rfl).cons ⟨_, rfl, by decide⟩).cons ⟨_, rfl, by decide⟩

theorem movingLoop_typesGrounded : basic.TypesGrounded .movingLoop :=
  typesGrounded_basic (by decide) ⟨rfl, rfl⟩

/-- The second move is found in the second round, and it is reported at that point. -/
theorem useState_diagnostics_movingLoop : ∃ r visits blocks ds s es t es' e v d,
    Regions.compute .movingLoop .basic .lastUse = .ok r ∧
    basic.checkFunction .movingLoop = .ok ⟨"movingLoop", .analysed visits blocks ds⟩ ∧
    basic.Arrives .movingLoop r ["head", "head", "entry"] s es ∧
    basic.transferBlock .movingLoop r "head" s = .ok (t, es') ∧ e ∈ es' ∧ v ∈ e.violations ∧
    v.kind = .useAfterMove ∧ d ∈ ds ∧ d.kind.isUseState = true ∧ d.subject = some v.subject ∧
    (∃ location, d.location = some location ∧ location.block = "head") ∧
    ∃ l path s es t es', basic.Arrives .movingLoop r (l :: path) s es ∧
      basic.transferBlock .movingLoop r l s = .ok (t, es') ∧
      ∃ e ∈ es', ∃ v ∈ e.violations, v.kind = d.kind ∧ d.subject = some v.subject ∧
        d.location = some e.location := by
  have hf : WellFormed.checkFunction .movingLoop basic.types (basic.signaturesFor .movingLoop) =
      .ok () := by decide
  have hfound : (do
      let r ← Regions.compute .movingLoop .basic .lastUse
      let run ← basic.follow .movingLoop r ["head", "head", "entry"]
      let last ← basic.transferBlock .movingLoop r "head" run.1
      return last.2.any fun e => e.violations.any fun v =>
        v.kind == .useAfterMove : Except Fault Bool) = .ok true := by
    decide +kernel
  obtain ⟨r, hr, hfound⟩ := Except.bind_inv hfound
  obtain ⟨⟨s, es⟩, hfollow, hfound⟩ := Except.bind_inv hfound
  obtain ⟨⟨t, es'⟩, hrun, hfound⟩ := Except.bind_inv hfound
  obtain ⟨e, he, hfound⟩ := List.any_eq_true.mp (Except.ok.inj hfound)
  obtain ⟨v, hv, hkind⟩ := List.any_eq_true.mp hfound
  have hkind : v.kind = .useAfterMove := eq_of_beq hkind
  have harrives := arrives_iff_follow.mpr ⟨movingLoop_isPath, hfollow⟩
  obtain ⟨htotal, hexact⟩ := useState_diagnostics_exact hf hr
  obtain ⟨⟨visits, blocks, ds, hreport⟩, -⟩ := htotal movingLoop_typesGrounded
  obtain ⟨hrealised, hreported⟩ := hexact visits blocks ds hreport
  obtain ⟨d, hd, huse, hsubject, hblock⟩ :=
    hreported _ _ s es t es' harrives hrun e he v hv (by rw [hkind]; rfl)
  exact ⟨r, visits, blocks, ds, s, es, t, es', e, v, d, hr, hreport, harrives, hrun, he, hv, hkind,
    hd, huse, hsubject, hblock, hrealised movingLoop_typesGrounded d hd huse⟩

end Checker

/-- Each of two branches ends the scope of one of two bindings. Both are given a value where the
branches meet. -/
def Function.tornScopes : Function :=
  { ofParts "tornScopes" [{ name := "x", type := 1, scope := "here" },
      { name := "y", type := 1, scope := "there" }]
      [{ label := "entry", ending := some { terminator := .branch "left" "right" none } },
       { label := "left", body := [{ op := .endScope "here" }],
         ending := some { terminator := .jump "meet" } },
       { label := "right", body := [{ op := .endScope "there" }],
         ending := some { terminator := .jump "meet" } },
       { label := "meet", body := [{ op := .init "x" none }, { op := .init "y" none }],
         ending := some { terminator := .ret none } }] with
    scopes := .ofList [{ id := rootScope }, { id := "here", parent := some rootScope },
      { id := "there", parent := some rootScope }] }

namespace Checker

theorem tornScopes_edge {l m : String} (h : Function.tornScopes.Edge l m) :
    (l, m) ∈ [("entry", "left"), ("entry", "right"), ("left", "meet"), ("right", "meet")] := by
  have hedges : ∀ b ∈ Function.tornScopes.blocks.entries, ∀ m ∈ b.successors,
      (b.label, m) ∈ [("entry", "left"), ("entry", "right"), ("left", "meet"),
        ("right", "meet")] := by decide
  obtain ⟨b, hb, hm⟩ := h
  obtain rfl : b.label = l := Registry.name_of_get?_eq_some hb
  exact hedges b (Registry.mem_of_get?_eq_some hb) m hm

theorem tornScopes_isPath {path : List String} (h : Function.tornScopes.IsPath ("meet" :: path)) :
    path ∈ [["left", "entry"], ["right", "entry"]] := by
  obtain ⟨hchain, -, hlast⟩ := h
  replace hlast : ("meet" :: path).getLast? = some "entry" := hlast
  -- Control comes to the meeting point from a branch, and to a branch from the entry, where no edge
  -- leads.
  cases path with
  | nil => simp at hlast
  | cons l path =>
    obtain ⟨hedge, hchain⟩ := List.isChain_cons_cons.mp hchain
    have hl : l = "left" ∨ l = "right" := by simpa using tornScopes_edge hedge
    cases path with
    | nil => rcases hl with rfl | rfl <;> simp at hlast
    | cons m path =>
      obtain ⟨hedge, hchain⟩ := List.isChain_cons_cons.mp hchain
      have hmem := tornScopes_edge hedge
      obtain rfl : m = "entry" := by rcases hl with rfl | rfl <;> simpa using hmem
      cases path with
      | nil => rcases hl with rfl | rfl <;> simp
      | cons n path =>
        have hnone := tornScopes_edge (List.isChain_cons_cons.mp hchain).1
        simp at hnone

/-- Both bindings are reported where the branches meet. Along each branch the scope of one of them
goes on, and giving it a value asks for the missing type, so no run gets through the block. -/
theorem tornScopes_unrealised : ∃ r report d,
    WellFormed.checkFunction .tornScopes torn.types (torn.signaturesFor .tornScopes) = .ok () ∧
    Regions.compute .tornScopes torn.types torn.policy = .ok r ∧
    torn.checkFunction .tornScopes = .ok report ∧
    d ∈ report.diagnostics ∧ d.kind = .useAfterDrop ∧ d.subject = some "y" ∧
    d.location = some ⟨"tornScopes", "meet", 1⟩ ∧
    ∀ l path s es t es', torn.Arrives .tornScopes r (l :: path) s es →
      torn.transferBlock .tornScopes r l s = .ok (t, es') →
      ∀ e ∈ es', d.location ≠ some e.location := by
  have hfound : (do
      let r ← Regions.compute .tornScopes torn.types torn.policy
      let report ← torn.checkFunction .tornScopes
      return report.diagnostics.any (fun d =>
          d.kind == .useAfterDrop && d.subject == some "y" &&
            d.location == some ⟨"tornScopes", "meet", 1⟩) ∧
        ∀ path ∈ [["left", "entry"], ["right", "entry"]], (do
          let run ← torn.follow .tornScopes r ("meet" :: path)
          torn.transferBlock .tornScopes r "meet" run.1).isOk = false : Except Fault Bool) =
            .ok true := by
    decide +kernel
  obtain ⟨r, hr, hfound⟩ := Except.bind_inv hfound
  obtain ⟨report, hreport, hfound⟩ := Except.bind_inv hfound
  obtain ⟨hany, hfails⟩ := of_decide_eq_true (Except.ok.inj hfound)
  obtain ⟨d, hd, hdrop⟩ := List.any_eq_true.mp hany
  simp only [Bool.and_eq_true, beq_iff_eq] at hdrop
  obtain ⟨⟨hkind, hsubject⟩, hlocation⟩ := hdrop
  refine ⟨r, report, d, by decide, hr, hreport, hd, hkind, hsubject, hlocation, ?_⟩
  intro l path s es t es' harrives hrun e he heq
  rw [hlocation, Option.some.injEq] at heq
  obtain rfl : "meet" = l := (congrArg Location.block heq).trans (transferBlock_location hrun e he)
  obtain ⟨hpath, hfollow⟩ := arrives_iff_follow.mp harrives
  have hfail := hfails path (tornScopes_isPath hpath)
  rw [Except.bind_of_ok hfollow, hrun] at hfail
  cases hfail

end Checker

end Ownership

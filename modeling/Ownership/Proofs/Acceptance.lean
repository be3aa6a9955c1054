import Ownership.Proofs.Assignment
import Ownership.Proofs.Report

/-! # What acceptance means for single paths

If a function is reported without diagnostics, then a run along any path through it goes well until,
if ever, an operation gives a value to a binding whose old value may not be overwritten. Up to there
the states of the analysis allow for those of the run.
-/
namespace Ownership
open Std

namespace Checker
open FlowState

variable {k : Checker} {f : Function} {r : Regions} {b : Block} {j j' p p' : FlowState}
    {es js : List Event}

/-- From a state, the operations before an instruction of a block go well, and then the target of
the instruction is refused its value because the old one may not be overwritten. -/
def RefusedAfter (k : Checker) (f : Function) (r : Regions) (b : Block) (n : Int)
    (before : List Instruction) (i : Instruction) (s : FlowState) (v : Violation) : Prop :=
  ∃ target es t u, i.op.assigned? = some target ∧ (k.applyOps f r b n before).run s = .ok es t ∧
    Event.found es = [] ∧ k.Prepares (k.site f r b (n + before.length) i.span) t [] u i.op ∧
    (k.site f r b (n + before.length) i.span).Refuses target v u

theorem RefusedAfter.cons {n : Int} {before : List Instruction} {i m : Instruction}
    {s t : FlowState} {v : Violation} {e : Event}
    (he : (k.applyInstruction r (k.site f r b n m.span) m).run s = .ok e t)
    (hclean : e.violations = []) (h : k.RefusedAfter f r b (n + 1) before i t v) :
    k.RefusedAfter f r b n (m :: before) i s v := by
  obtain ⟨target, es, u, w, htarget, hops, hes, hprep, hrefuse⟩ := h
  refine ⟨target, e :: es, u, w, htarget,
    applyOps_cons_iff.mpr ⟨e, t, es, he, hops, rfl⟩, ?_, ?_, ?_⟩
  · rw [Event.found_cons, hclean, hes]
    rfl
  · rwa [index_cons]
  · rwa [index_cons]

theorem applyInstruction_covered {c : Site} (h : Covers j p) {i : Instruction} {e e' : Event}
    (hj : (k.applyInstruction r c i).run j = .ok e j') (hclean : e.violations = [])
    (hp : (k.applyInstruction r c i).run p = .ok e' p') :
    (e'.violations = [] ∧ Covers j' p') ∨
    ∃ target v u, i.op.assigned? = some target ∧ e'.violations = [v] ∧ k.Prepares c p [] u i.op ∧
      c.Refuses target v u := by
  obtain ⟨vs, u, hop, rfl, rfl⟩ := applyInstruction_iff.mp hj
  cases hclean
  obtain ⟨ws, q, hopp, hend⟩ := applyOp_covered h hop
  obtain ⟨ws', q', hopp', rfl, rfl⟩ := applyInstruction_iff.mp hp
  cases hopp.symm.trans hopp'
  rcases hend with ⟨rfl, hcov⟩ | ⟨target, v, s, htarget, rfl, -, hover⟩
  · exact Or.inl ⟨rfl, hcov.keepLoans _⟩
  · right
    obtain ⟨vs, w, _, _, hprep, _, hnone, -⟩ := assigned_inv htarget hop
    obtain ⟨vs', w', refused, _, hprep', hgive, hvs', -⟩ := assigned_inv htarget hopp
    obtain ⟨rfl, -⟩ := List.append_eq_nil_iff.mp hnone.symm
    -- the operands are read with nothing wrong, so that it is the target that is refused
    obtain ⟨rfl, -⟩ := prepares_covered h hprep hprep'
    obtain rfl : some v = refused := by
      rw [List.nil_append] at hvs'
      cases refused <;> cases hvs'
      rfl
    obtain ⟨rfl, -⟩ := Site.store_some_inv hgive
    exact ⟨target, v, _, htarget, rfl, hprep', hgive, hover⟩

/-- Operations that go well from a state go well from every state that one allows for, up to an
overwrite. -/
theorem applyOps_covered (n : Int) (ops : List Instruction) (h : Covers j p)
    (hj : (k.applyOps f r b n ops).run j = .ok js j') (hclean : Event.found js = [])
    (hp : (k.applyOps f r b n ops).run p = .ok es p') :
    (Event.found es = [] ∧ Covers j' p') ∨ ∃ before i after v, ops = before ++ i :: after ∧
      (Event.found es).head? = some (⟨f.name, b.label, n + before.length⟩, v) ∧
      k.RefusedAfter f r b n before i p v := by
  induction ops generalizing n j p js es with
  | nil =>
    obtain ⟨rfl, rfl⟩ := applyOps_nil_iff.mp hj
    obtain ⟨rfl, rfl⟩ := applyOps_nil_iff.mp hp
    exact Or.inl ⟨rfl, h⟩
  | cons i ops ih =>
    obtain ⟨e, u, js', he, hrest, rfl⟩ := applyOps_cons_iff.mp hj
    obtain ⟨e', q, es', he', hrestp, rfl⟩ := applyOps_cons_iff.mp hp
    obtain ⟨hvs, hjs⟩ := List.forall_mem_cons.mp (Event.found_eq_nil.mp hclean)
    rcases applyInstruction_covered h he hvs he'
      with ⟨hvs', hcov⟩ | ⟨target, v, w, htarget, hvs', hprep, hrefuse⟩
    · have hfound : Event.found (e' :: es') = Event.found es' := by rw [Event.found_cons, hvs']; rfl
      rw [hfound]
      have hlater := ih (n + 1) hcov hrest (Event.found_eq_nil.mpr hjs) hrestp
      rcases hlater with hgood | ⟨before, m, after, v, rfl, hhead, hbad⟩
      · exact Or.inl hgood
      · refine Or.inr ⟨i :: before, m, after, v, rfl, ?_, hbad.cons he' hvs'⟩
        rw [hhead, index_cons]
    · right
      have hloc : e'.location = ⟨f.name, b.label, n⟩ := by
        obtain ⟨_, _, _, rfl, _⟩ := applyInstruction_iff.mp he'
        rfl
      refine ⟨[], i, ops, v, rfl, ?_, target, [], p, w, htarget, rfl, rfl, ?_, ?_⟩
      · rw [Event.found_cons, hvs', hloc]
        simp
      · simpa using hprep
      · simpa using hrefuse

def OverwriteIn (k : Checker) (f : Function) (r : Regions) (l : String) (s : FlowState)
    (location : Location) (v : Violation) : Prop :=
  ∃ (g : f.Assignment) (es : List Event) (u : FlowState), g.block.label = l ∧
    g.location = location ∧
    g.Reached k r s es [] u ∧ Event.found es = [] ∧ (g.site k r).Refuses g.target v u

theorem transferBlock_covered {l : String} (h : Covers j p)
    (hj : k.transferBlock f r l j = .ok (j', js)) (hclean : Event.found js = [])
    (hp : k.transferBlock f r l p = .ok (p', es)) :
    (Event.found es = [] ∧ Covers j' p') ∨
      ∃ location v, (Event.found es).head? = some (location, v) ∧
        k.OverwriteIn f r l p location v := by
  obtain ⟨b, js', u, e, hb, hops, hend, rfl⟩ := transferBlock_ops_iff.mp hj
  obtain ⟨b', es', q, e', hb', hopsp, hendp, rfl⟩ := transferBlock_ops_iff.mp hp
  cases hb.symm.trans hb'
  have hname : b.label = l := Registry.name_of_get?_eq_some hb
  rw [Event.found_append] at hclean ⊢
  obtain ⟨hjs, hlast⟩ := List.append_eq_nil_iff.mp hclean
  rcases applyOps_covered 0 b.body h hops hjs hopsp
    with ⟨hes, hcov⟩ | ⟨before, i, after, v, hbody, hhead, hbad⟩
  · left
    obtain ⟨vs, w, hterm, rfl, rfl⟩ := applyEnding_iff.mp hend
    obtain ⟨ws, w', htermp, rfl, rfl⟩ := applyEnding_iff.mp hendp
    have hvs : vs = [] := Event.found_eq_nil.mp hlast _ List.mem_cons_self
    subst hvs
    obtain ⟨q', hq', hcov'⟩ := applyTerminator_covered hcov hterm
    cases htermp.symm.trans hq'
    exact ⟨by rw [hes]; rfl, hcov'.keepLoans _⟩
  · right
    obtain ⟨target, es₁, t, w, htarget, hrun, hes₁, hprep, hrefuse⟩ := hbad
    rw [Int.zero_add] at hhead hprep hrefuse
    let g : f.Assignment := ⟨b, before, i, after, target, by rw [hname, hb], hbody, htarget⟩
    refine ⟨g.location, v, ?_, g, es₁, w, hname, rfl, ⟨t, hrun, hprep⟩, hes₁, hrefuse⟩
    rw [List.head?_append, hhead]
    rfl

def OverwriteOn (k : Checker) (f : Function) (r : Regions) (path : List String)
    (location : Location) (v : Violation) : Prop :=
  ∃ l rest s es, (l :: rest) <:+ path ∧ k.Arrives f r (l :: rest) s es ∧ Event.found es = [] ∧
    k.OverwriteIn f r l s location v

theorem OverwriteOn.kind {path : List String} {location : Location} {v : Violation}
    (h : k.OverwriteOn f r path location v) :
    v.kind = .immutableWrite ∨ v.kind = .writeWhileBorrowed := by
  obtain ⟨_, _, _, _, _, _, _, _, _, _, _, _, _, _, -, rfl | ⟨related, rfl⟩⟩ := h
  · exact Or.inl rfl
  · exact Or.inr rfl

def OverwriteFirst (k : Checker) (f : Function) (r : Regions) (path : List String)
    (es : List Event) : Prop :=
  ∃ location v, (Event.found es).head? = some (location, v) ∧ k.OverwriteOn f r path location v

theorem OverwriteFirst.append {path path' : List String} (h : k.OverwriteFirst f r path es)
    (es' : List Event) (hpath : path <:+ path') : k.OverwriteFirst f r path' (es ++ es') := by
  obtain ⟨location, v, hhead, l, rest, s, es₀, hsuffix, hon⟩ := h
  refine ⟨location, v, ?_, l, rest, s, es₀, hsuffix.trans hpath, hon⟩
  rw [Event.found_append, List.head?_append, hhead]
  rfl

variable {a : Analysis} {l : String} {path : List String} {s : FlowState}

theorem Arrives.overwriteFirst (h : k.Arrives f r (l :: path) s es) (hes : Event.found es = [])
    {es' : List Event} {location : Location} {v : Violation}
    (hhead : (Event.found es').head? = some (location, v))
    (hin : k.OverwriteIn f r l s location v) : k.OverwriteFirst f r (l :: path) (es ++ es') := by
  refine ⟨location, v, ?_, l, path, s, es, List.suffix_rfl, h, hes, hin⟩
  rwa [Event.found_append, hes, List.nil_append]

/-- As long as nothing is found on a path, the analysis allows for its states. -/
theorem Arrives.covered (ha : a.Solves k f r)
    (hclean : ∀ (l : String) (j t : FlowState) (js : List Event), a.inStates[l]? = some j →
      k.transferBlock f r l j = .ok (t, js) → Event.found js = [])
    (h : k.Arrives f r (l :: path) s es) :
    (Event.found es = [] ∧ ∃ j, a.inStates[l]? = some j ∧ Covers j s) ∨
    k.OverwriteFirst f r (l :: path) es := by
  -- by induction on the path: a solution absorbs what flows along each edge of it
  generalize hp : l :: path = p at h
  induction h generalizing l path with
  | start hl hs =>
    cases hp
    obtain ⟨u, hu, habsorbs⟩ := ha.entry _ _ hl hs
    exact Or.inl ⟨rfl, u, hu, (FlowState.merge_agrees_iff.mp habsorbs).covers⟩
  | @step l m path s t es es' harrives ht hm ih =>
    cases hp
    rcases ih rfl with ⟨hes, j, hj, hcov⟩ | hfirst
    · obtain ⟨tj, js, htj, hout⟩ := ha.result l j hj
      rcases transferBlock_covered hcov htj (hclean l j tj js hj htj) ht
        with ⟨hes', hcov'⟩ | ⟨location, v, hhead, hin⟩
      · obtain ⟨u, hu, habsorbs⟩ := ha.edge l m tj hout hm
        have hentered : Covers (enter r tj m) (enter r t m) := hcov'.keepLoans _
        have hbelow : Covers u (enter r tj m) := (FlowState.merge_agrees_iff.mp habsorbs).covers
        exact Or.inl ⟨by rw [Event.found_append, hes, hes']; rfl, u, hu, hentered.trans hbelow⟩
      · have hfirst :=
          (harrives.overwriteFirst hes hhead hin).append [] (List.suffix_cons m (l :: path))
        rw [List.append_nil] at hfirst
        exact Or.inr hfirst
    · exact Or.inr (hfirst.append es' (List.suffix_cons m (l :: path)))

/-- The blocks of an accepted function go well from the states of the analysis. -/
theorem found_eq_nil_of_accepted (ha : a.Solves k f r) (hf : f.Fits k.types (k.signaturesFor f))
    (hd : k.diagnose a = .ok []) (l : String) (j t : FlowState) (js : List Event)
    (hj : a.inStates[l]? = some j)
    (ht : k.transferBlock f r l j = .ok (t, js)) : Event.found js = [] := by
  refine Event.diagnostics_eq_nil.mp (List.eq_nil_iff_forall_not_mem.mpr fun d hmem => ?_)
  have hds := (mem_diagnose ha hf hd).mpr ⟨l, j, t, js, hj, ht, hmem⟩
  cases hds

theorem accepted_inv {report : FunctionReport} (h : k.checkFunction f = .ok report)
    (hacc : report.accepted = true) : ∃ a, k.analyze f = .ok a ∧ k.diagnose a = .ok [] := by
  have hnil : report.diagnostics = [] := List.isEmpty_iff.mp hacc
  rcases checkFunction_inv h with ⟨problem, rfl⟩ | ⟨a, ds, ha, hd, rfl⟩
  · cases hnil
  · cases hnil
    exact ⟨a, ha, hd⟩

/-- If a function is accepted, the first violation on a path through it, if there is one, is an
overwrite refused where an operation gives its target a value. Where the types are there with all
they are made of, there is a run along every path, of any length. -/
theorem first_violation_of_accepted
    (hf : WellFormed.checkFunction f k.types (k.signaturesFor f) = .ok ())
    (hr : Regions.compute f k.types k.policy = .ok r) {report : FunctionReport}
    (hreport : k.checkFunction f = .ok report) (hacc : report.accepted = true) :
    (k.TypesGrounded f → ∀ l path, f.IsPath (l :: path) →
      ∃ s es t es', k.Arrives f r (l :: path) s es ∧ k.transferBlock f r l s = .ok (t, es')) ∧
    ∀ l path s es t es', k.Arrives f r (l :: path) s es → k.transferBlock f r l s = .ok (t, es') →
      ∀ location v, (Event.found (es ++ es')).head? = some (location, v) →
        k.OverwriteOn f r (l :: path) location v ∧
        (v.kind = .immutableWrite ∨ v.kind = .writeWhileBorrowed) := by
  have hfits := WellFormed.checkFunction_inv hf
  obtain ⟨a, ha, hd⟩ := accepted_inv hreport hacc
  have hsolves := analyze_solves hf hr ha
  have hclean := found_eq_nil_of_accepted hsolves hfits hd
  refine ⟨fun htypes l path hpath => exists_run htypes hfits hpath, ?_⟩
  intro l path s es t es' harrives ht location v hhead
  have hfirst : Event.found (es ++ es') = [] ∨ k.OverwriteFirst f r (l :: path) (es ++ es') := by
    rcases harrives.covered hsolves hclean with ⟨hes, j, hj, hcov⟩ | hfirst
    · obtain ⟨tj, js, htj, -⟩ := hsolves.result l j hj
      rcases transferBlock_covered hcov htj (hclean l j tj js hj htj) ht
        with ⟨hes', -⟩ | ⟨location, v, hhead, hin⟩
      · exact Or.inl (by rw [Event.found_append, hes, hes']; rfl)
      · exact Or.inr (harrives.overwriteFirst hes hhead hin)
    · exact Or.inr (hfirst.append es' List.suffix_rfl)
  rcases hfirst with hnone | ⟨location', v', hhead', hat⟩
  · rw [hnone] at hhead
    cases hhead
  · cases hhead.symm.trans hhead'
    exact ⟨hat, hat.kind⟩

end Checker

def Function.rejoined : Function :=
  ofParts "rejoined" [{ name := "x", type := 1 }]
    [{ label := "entry", body := [{ op := .declare "x" }],
       ending := some { terminator := .branch "set" "skip" none } },
     { label := "set", body := [{ op := .init "x" none }],
       ending := some { terminator := .jump "meet" } },
     { label := "skip", ending := some { terminator := .jump "meet" } },
     { label := "meet", body := [{ op := .init "x" none }],
       ending := some { terminator := .ret none } }]

namespace Checker

theorem rejoined_isPath : Function.rejoined.IsPath ["meet", "set", "entry"] :=
  ((Function.IsPath.singleton rfl).cons ⟨_, rfl, by decide⟩).cons ⟨_, rfl, by decide⟩

/-- On the path where the number has a value already, the first violation is the second
assignment. -/
theorem first_violation_rejoined : ∃ r report s es t es' location,
    Regions.compute .rejoined .basic .lastUse = .ok r ∧ basic.checkFunction .rejoined = .ok report ∧
    report.accepted = true ∧ basic.Arrives .rejoined r ["meet", "set", "entry"] s es ∧
    basic.transferBlock .rejoined r "meet" s = .ok (t, es') ∧
    (Event.found (es ++ es')).head? = some (location, .assignedTwice "x") ∧
    basic.OverwriteOn .rejoined r ["meet", "set", "entry"] location (.assignedTwice "x") := by
  have hf : WellFormed.checkFunction .rejoined basic.types (basic.signaturesFor .rejoined) =
      .ok () := by decide
  have hcheck : (do return (← basic.checkFunction .rejoined).accepted : Except Fault Bool) =
      .ok true := by
    decide +kernel
  have hrun : (do
      let r ← Regions.compute .rejoined .basic .lastUse
      let run ← basic.follow .rejoined r ["meet", "set", "entry"]
      let last ← basic.transferBlock .rejoined r "meet" run.1
      return (Event.found (run.2 ++ last.2)).head? : Except Fault (Option (Location × Violation))) =
        .ok (some (⟨"rejoined", "meet", 0⟩, .assignedTwice "x")) := by decide +kernel
  obtain ⟨report, hreport, hacc⟩ := Except.bind_inv hcheck
  obtain ⟨r, hr, hrun⟩ := Except.bind_inv hrun
  obtain ⟨⟨s, es⟩, hfollow, hrun⟩ := Except.bind_inv hrun
  obtain ⟨⟨t, es'⟩, ht, hrun⟩ := Except.bind_inv hrun
  have hacc : report.accepted = true := Except.ok.inj hacc
  have hhead : (Event.found (es ++ es')).head? =
      some (⟨"rejoined", "meet", 0⟩, .assignedTwice "x") :=
    Except.ok.inj hrun
  have harrives := arrives_iff_follow.mpr ⟨rejoined_isPath, hfollow⟩
  obtain ⟨-, hpaths⟩ := first_violation_of_accepted hf hr hreport hacc
  obtain ⟨hat, -⟩ := hpaths _ _ s es t es' harrives ht _ _ hhead
  exact ⟨r, report, s, es, t, es', _, hr, hreport, hacc, harrives, ht, hhead, hat⟩

end Checker

end Ownership

import Ownership.Proofs.Path

/-! # What a report says

The diagnostics of a report are the violations found in the reachable blocks from the states of the
analysis, but for those that an earlier one of the same block explains. A report without diagnostics
hides nothing.
-/
namespace Ownership
open Std

namespace Except
variable {α β : Type} {g : α → Except Fault β} {l : List α} {ys : List β}

theorem mapM_cons_inv {x : α} (h : (x :: l).mapM g = .ok ys) :
    ∃ y ys', g x = .ok y ∧ l.mapM g = .ok ys' ∧ ys = y :: ys' := by
  rw [List.mapM_cons] at h
  obtain ⟨y, hy, h⟩ := Except.bind_inv h
  obtain ⟨ys', hys, h⟩ := Except.bind_inv h
  cases h
  exact ⟨y, ys', hy, hys, rfl⟩

theorem exists_of_mem_mapM (h : l.mapM g = .ok ys) {y : β} (hy : y ∈ ys) :
    ∃ x ∈ l, g x = .ok y := by
  induction l generalizing ys with
  | nil =>
    cases h
    cases hy
  | cons x l ih =>
    obtain ⟨y', ys', hx, hl, rfl⟩ := mapM_cons_inv h
    rcases List.mem_cons.mp hy with rfl | hy
    · exact ⟨x, by simp, hx⟩
    · obtain ⟨x', hx', hg⟩ := ih hl hy
      exact ⟨x', by simp [hx'], hg⟩

theorem mem_mapM_of_mem (h : l.mapM g = .ok ys) {x : α} (hx : x ∈ l) : ∃ y ∈ ys, g x = .ok y := by
  induction l generalizing ys with
  | nil => cases hx
  | cons x' l ih =>
    obtain ⟨y', ys', hy', hl, rfl⟩ := mapM_cons_inv h
    rcases List.mem_cons.mp hx with rfl | hx
    · exact ⟨y', by simp, hy'⟩
    · obtain ⟨y, hy, hg⟩ := ih hl hx
      exact ⟨y, by simp [hy], hg⟩

theorem exists_of_mapM_error {e : Fault} (h : l.mapM g = .error e) : ∃ x ∈ l, g x = .error e := by
  induction l with
  | nil => cases h
  | cons x l ih =>
    rw [List.mapM_cons] at h
    cases hx : g x with
    | error e' =>
      rw [hx] at h
      cases h
      exact ⟨x, List.mem_cons_self, hx⟩
    | ok y =>
      rw [Except.bind_of_ok hx] at h
      cases hl : l.mapM g with
      | error e' =>
        rw [hl] at h
        cases h
        obtain ⟨x', hx', hg⟩ := ih hl
        exact ⟨x', List.mem_cons_of_mem x hx', hg⟩
      | ok ys =>
        rw [hl] at h
        cases h

theorem mapM_total (h : ∀ x ∈ l, ∃ y, g x = .ok y) : ∃ ys, l.mapM g = .ok ys := by
  induction l with
  | nil => exact ⟨[], rfl⟩
  | cons x l ih =>
    obtain ⟨⟨y, hy⟩, hl⟩ := List.forall_mem_cons.mp h
    obtain ⟨ys, hys⟩ := ih hl
    exact ⟨y :: ys, by rw [List.mapM_cons, Except.bind_of_ok hy, Except.bind_of_ok hys]; rfl⟩

end Except

namespace Event
variable {vs : List Violation} {v : Violation} {blamed : Names} {es : List Event} {d : Diagnostic}

theorem mem_of_mem_fresh (h : v ∈ (fresh vs blamed).1) : v ∈ vs := by
  induction vs generalizing blamed with
  | nil => exact h
  | cons w vs ih =>
    rw [fresh] at h
    split at h
    · split at h
      · exact List.mem_cons_of_mem _ (ih h)
      · rcases List.mem_cons.mp h with rfl | h
        · exact List.mem_cons_self
        · exact List.mem_cons_of_mem _ (ih h)
    · rcases List.mem_cons.mp h with rfl | h
      · exact List.mem_cons_self
      · exact List.mem_cons_of_mem _ (ih h)

/-- A binding is blamed because it was before or because of a violation that is kept. -/
theorem fresh_blamed {x : String} (h : x ∈ (fresh vs blamed).2) :
    x ∈ blamed ∨ ∃ w ∈ (fresh vs blamed).1, w.kind.isUseState = true ∧ w.subject = x := by
  induction vs generalizing blamed with
  | nil => exact Or.inl h
  | cons w vs ih =>
    rw [fresh] at h ⊢
    split at h
    · rename_i hkind
      split at h
      · rename_i hold
        simp only [hkind, hold, ↓reduceIte]
        exact ih h
      · rename_i hnew
        simp only [hkind, hnew, ↓reduceIte, Bool.false_eq_true]
        rcases ih h with hx | ⟨w', hw', hx⟩
        · rw [ExtTreeSet.mem_insert, LawfulEqCmp.compare_eq_iff_eq] at hx
          rcases hx with rfl | hx
          · exact Or.inr ⟨w, by simp, hkind, rfl⟩
          · exact Or.inl hx
        · exact Or.inr ⟨w', by simp [hw'], hx⟩
    · rename_i hkind
      simp only [hkind, ↓reduceIte, Bool.false_eq_true]
      rcases ih h with hx | ⟨w', hw', hx⟩
      · exact Or.inl hx
      · exact Or.inr ⟨w', by simp [hw'], hx⟩

/-- A violation is left out only for a binding that is blamed already. -/
theorem fresh_complete (blamed : Names) (h : v ∈ vs) : v ∈ (fresh vs blamed).1 ∨
    v.kind.isUseState = true ∧ (v.subject ∈ blamed ∨
      ∃ w ∈ (fresh vs blamed).1, w.kind.isUseState = true ∧ w.subject = v.subject) := by
  induction vs generalizing blamed with
  | nil => cases h
  | cons w vs ih =>
    rw [fresh]
    split
    · rename_i hkind
      split
      · rename_i hold
        rcases List.mem_cons.mp h with rfl | h
        · exact Or.inr ⟨hkind, Or.inl (ExtTreeSet.contains_iff_mem.mp hold)⟩
        · exact ih blamed h
      · rcases List.mem_cons.mp h with rfl | h
        · exact Or.inl (by simp)
        · rcases ih (blamed.insert w.subject) h with hv | ⟨huse, hx | ⟨w', hw', hx⟩⟩
          · exact Or.inl (by simp [hv])
          · rw [ExtTreeSet.mem_insert, LawfulEqCmp.compare_eq_iff_eq] at hx
            rcases hx with hx | hx
            · exact Or.inr ⟨huse, Or.inr ⟨w, by simp, hkind, hx⟩⟩
            · exact Or.inr ⟨huse, Or.inl hx⟩
          · exact Or.inr ⟨huse, Or.inr ⟨w', by simp [hw'], hx⟩⟩
    · rcases List.mem_cons.mp h with rfl | h
      · exact Or.inl (by simp)
      · rcases ih blamed h with hv | ⟨huse, hx | ⟨w', hw', hx⟩⟩
        · exact Or.inl (by simp [hv])
        · exact Or.inr ⟨huse, Or.inl hx⟩
        · exact Or.inr ⟨huse, Or.inr ⟨w', by simp [hw'], hx⟩⟩

/-- Every diagnostic of a block is a violation found in it. -/
theorem diagnostics_inv (h : d ∈ diagnostics es blamed) :
    ∃ e ∈ es, ∃ v ∈ e.violations, d = v.diagnostic e.location e.span := by
  induction es generalizing blamed with
  | nil => cases h
  | cons e es ih =>
    rcases List.mem_append.mp h with h | h
    · obtain ⟨v, hv, rfl⟩ := List.mem_map.mp h
      exact ⟨e, by simp, v, mem_of_mem_fresh hv, rfl⟩
    · obtain ⟨e', he', v, hv, hd⟩ := ih h
      exact ⟨e', by simp [he'], v, hv, hd⟩

/-- A violation found in a block is reported, or it is about a binding for which such a violation
was reported before. -/
theorem diagnostics_complete (blamed : Names) {e : Event} (he : e ∈ es) (hv : v ∈ e.violations) :
    v.diagnostic e.location e.span ∈ diagnostics es blamed ∨ v.kind.isUseState = true ∧
    (v.subject ∈ blamed ∨
      ∃ e' ∈ es, ∃ w ∈ e'.violations, w.kind.isUseState = true ∧ w.subject = v.subject ∧
        w.diagnostic e'.location e'.span ∈ diagnostics es blamed) := by
  induction es generalizing blamed with
  | nil => cases he
  | cons e₀ es ih =>
    have hhere : ∀ w ∈ (fresh e₀.violations blamed).1,
        w.diagnostic e₀.location e₀.span ∈ diagnostics (e₀ :: es) blamed :=
      fun w hw => List.mem_append_left _ (List.mem_map.mpr ⟨w, hw, rfl⟩)
    rcases List.mem_cons.mp he with rfl | he
    · rcases fresh_complete blamed hv with hkept | ⟨huse, hx | ⟨w, hw, hkind, hx⟩⟩
      · exact Or.inl (hhere v hkept)
      · exact Or.inr ⟨huse, Or.inl hx⟩
      · exact Or.inr ⟨huse, Or.inr ⟨e, by simp, w, mem_of_mem_fresh hw, hkind, hx, hhere w hw⟩⟩
    · -- the bindings blamed when the later events come are a part of those blamed after this one
      obtain ⟨rest, hrest, hsub⟩ : ∃ rest : Names, diagnostics (e₀ :: es) blamed =
          (fresh e₀.violations blamed).1.map (fun v => v.diagnostic e₀.location e₀.span) ++
          diagnostics es rest ∧
          ∀ x ∈ rest, x ∈ (fresh e₀.violations blamed).2 := by
        refine ⟨_, rfl, fun x hx => ?_⟩
        cases hr : e₀.refreshed with
        | none => simpa [hr] using hx
        | some y =>
          rw [hr] at hx
          exact ExtTreeSet.mem_of_mem_erase hx
      rcases ih rest he with hd | ⟨huse, hx | ⟨e', he', w, hw, hkind, hx, hd⟩⟩
      · exact Or.inl (by rw [hrest]; exact List.mem_append_right _ hd)
      · refine Or.inr ⟨huse, ?_⟩
        rcases fresh_blamed (hsub _ hx) with hx | ⟨w, hw, hkind, hx⟩
        · exact Or.inl hx
        · exact Or.inr ⟨e₀, by simp, w, mem_of_mem_fresh hw, hkind, hx, hhere w hw⟩
      · refine Or.inr ⟨huse, Or.inr ⟨e', by simp [he'], w, hw, hkind, hx, ?_⟩⟩
        rw [hrest]
        exact List.mem_append_right _ hd

/-- A block without diagnostics is a block without violations. -/
theorem diagnostics_eq_nil : diagnostics es ∅ = [] ↔ found es = [] := by
  rw [found_eq_nil]
  constructor
  · intro h e he
    refine List.eq_nil_iff_forall_not_mem.mpr fun v hv => ?_
    rcases diagnostics_complete ∅ he hv with hd | ⟨-, hx | ⟨e', he', w, hw, -, -, hd⟩⟩
    · rw [h] at hd
      cases hd
    · exact ExtTreeSet.not_mem_empty hx
    · rw [h] at hd
      cases hd
  · intro h
    refine List.eq_nil_iff_forall_not_mem.mpr fun d hd => ?_
    obtain ⟨e, he, v, hv, -⟩ := diagnostics_inv hd
    rw [h e he] at hv
    cases hv

end Event

namespace Checker
variable {k : Checker} {f : Function} {r : Regions} {a : Analysis} {l : String} {es : List Event}
variable {ds : List Diagnostic} {d : Diagnostic}

section Solved
variable (ha : a.Solves k f r)
include ha

theorem eventsOf_iff : k.eventsOf a l = .ok es ↔
    ∃ s t, a.inStates[l]? = some s ∧ k.transferBlock f r l s = .ok (t, es) := by
  rw [eventsOf]
  cases hl : a.inStates[l]? with
  | none => simp [throw, throwThe, MonadExceptOf.throw]
  | some s =>
    dsimp only
    rw [ha.function, ha.regions]
    constructor
    · intro h
      obtain ⟨⟨t, es'⟩, ht, h⟩ := Except.bind_inv h
      cases h
      exact ⟨s, t, rfl, ht⟩
    · rintro ⟨_, t, ⟨⟩, ht⟩
      exact Except.bind_of_ok ht

theorem mem_order (hf : f.Fits k.types (k.signaturesFor f)) : l ∈ a.order ↔ l ∈ a.inStates := by
  obtain ⟨entry, rest, horder, -, -, hmem⟩ := Function.reversePostorder_spec hf
  have heq : a.order = entry :: rest := Except.ok.inj (ha.order.symm.trans horder)
  rw [heq, hmem, ha.inStates]

theorem diagnose_total (hf : f.Fits k.types (k.signaturesFor f)) : ∃ ds, k.diagnose a = .ok ds := by
  have hblocks : ∀ l ∈ a.order, ∃ ds,
      (do return Event.diagnostics (← k.eventsOf a l) ∅ : Except Fault _) = .ok ds := by
    intro l hl
    obtain ⟨s, hs⟩ :=
      Option.isSome_iff_exists.mp (ExtTreeMap.mem_iff_isSome_getElem?.mp ((mem_order ha hf).mp hl))
    obtain ⟨t, es, ht, -⟩ := ha.result l s hs
    exact ⟨_, Except.bind_of_ok ((eventsOf_iff ha).mpr ⟨s, t, hs, ht⟩)⟩
  obtain ⟨blocks, h⟩ := Except.mapM_total hblocks
  exact ⟨blocks.flatten, Except.bind_of_ok h⟩

/-- The diagnostics of a function are those of its reachable blocks. -/
theorem mem_diagnose (hf : f.Fits k.types (k.signaturesFor f))
    (hd : k.diagnose a = .ok ds) : d ∈ ds ↔
    ∃ l s t es, a.inStates[l]? = some s ∧ k.transferBlock f r l s = .ok (t, es) ∧
      d ∈ Event.diagnostics es ∅ := by
  obtain ⟨blocks, hblocks, hd⟩ := Except.bind_inv hd
  cases hd
  rw [List.mem_flatten]
  constructor
  · rintro ⟨block, hblock, hd⟩
    obtain ⟨l, -, hrun⟩ := Except.exists_of_mem_mapM hblocks hblock
    obtain ⟨es, hes, hrun⟩ := Except.bind_inv hrun
    cases hrun
    obtain ⟨s, t, hs, ht⟩ := (eventsOf_iff ha).mp hes
    exact ⟨l, s, t, es, hs, ht, hd⟩
  · rintro ⟨l, s, t, es, hs, ht, hd⟩
    have hl : l ∈ a.order :=
      (mem_order ha hf).mpr (ExtTreeMap.mem_iff_isSome_getElem?.mpr (by rw [hs]; rfl))
    obtain ⟨block, hblock, hrun⟩ := Except.mem_mapM_of_mem hblocks hl
    obtain ⟨es', hes, hrun⟩ := Except.bind_inv hrun
    cases hrun
    cases hes.symm.trans ((eventsOf_iff ha).mpr ⟨s, t, hs, ht⟩)
    exact ⟨_, hblock, hd⟩

end Solved

/-- A report is about a defect, or gives the diagnostics of the analysis. -/
theorem checkFunction_inv {report : FunctionReport} (h : k.checkFunction f = .ok report) :
    (∃ problem, report = ⟨f.name, .malformed problem⟩) ∨
    ∃ a ds, k.analyze f = .ok a ∧ k.diagnose a = .ok ds ∧
      report = ⟨f.name, .analysed a.visits a.order.length ds⟩ := by
  rw [checkFunction] at h
  cases ha : k.analyze f with
  | ok a =>
    rw [ha] at h
    obtain ⟨ds, hds, h⟩ := Except.bind_inv h
    cases h
    exact Or.inr ⟨a, ds, rfl, hds, rfl⟩
  | error e =>
    rw [ha] at h
    cases e with
    | malformed problem =>
      cases h
      exact Or.inl ⟨problem, rfl⟩
    | _ => cases h

theorem checkFunction_of_analyze (ha : k.analyze f = .ok a) (hd : k.diagnose a = .ok ds) :
    k.checkFunction f = .ok ⟨f.name, .analysed a.visits a.order.length ds⟩ := by
  rw [checkFunction, ha]
  exact Except.bind_of_ok hd

section
variable (hf : WellFormed.checkFunction f k.types (k.signaturesFor f) = .ok ())
variable (hr : Regions.compute f k.types k.policy = .ok r)
include hf hr

/-- A well-formed function is analysed and reported on, if its types are there with all they are
made of. -/
theorem exists_report (ht : k.TypesGrounded f) :
    ∃ a ds, k.analyze f = .ok a ∧ k.diagnose a = .ok ds ∧
    k.checkFunction f = .ok ⟨f.name, .analysed a.visits a.order.length ds⟩ := by
  obtain ⟨a, ha⟩ := analyze_total hf hr ht
  obtain ⟨ds, hd⟩ := diagnose_total (analyze_solves hf hr ha) (WellFormed.checkFunction_inv hf)
  exact ⟨a, ds, ha, hd, checkFunction_of_analyze ha hd⟩

end

end Checker

end Ownership

import Mathlib.Data.List.ProdSigma
import Mathlib.Logic.Function.Iterate
import Ownership.Proofs.Universe
import Ownership.Settle

/-! # Repetitions that come to rest

A repetition comes to rest if each step that changes something raises a bounded measure. For tables
of sets of names the measure is the number of marks, and a sweep that sees more marks sets more
marks.
-/
namespace Ownership
open Std

/-- Where a repetition is at rest, it is from then on. -/
theorem iterate_of_rest {α : Type} {step : α → α} {x : α} {n m : Nat}
    (h : step^[n + 1] x = step^[n] x) (hm : n ≤ m) : step^[m] x = step^[n] x := by
  obtain ⟨d, rfl⟩ := Nat.exists_eq_add_of_le hm
  rw [Nat.add_comm, Function.iterate_add_apply]
  exact Function.iterate_fixed ((Function.iterate_succ_apply' step n x).symm.trans h) d

section Settle
variable {α : Type} [DecidableEq α] {step : α → α} {P : α → Prop} {n : Nat} {x : α}

theorem settle_eq_iterate (step : α → α) (n : Nat) (x : α) : settle step n x = step^[n] x := by
  induction n generalizing x with
  | zero => rfl
  | succ n ih =>
    rw [settle]
    split
    · rename_i hrest
      exact (Function.iterate_fixed hrest (n + 1)).symm
    · exact ih (step x)

theorem settle_induction (hstep : ∀ x, P x → P (step x)) (hx : P x) : P (settle step n x) := by
  rw [settle_eq_iterate]
  exact Function.Iterate.rec P hx hstep n

/-- A repetition comes to rest if each step that changes something raises a bounded measure. -/
theorem step_settle {measure : α → Nat} {bound : Nat} (hstep : ∀ x, P x → P (step x))
    (hlt : ∀ x, P x → step x ≠ x → measure x < measure (step x))
    (hle : ∀ x, P x → measure x ≤ bound) (hx : P x)
    (hn : bound ≤ n + measure x) : step (settle step n x) = settle step n x := by
  induction n generalizing x with
  | zero =>
    refine Classical.byContradiction fun hne => ?_
    have := hlt x hx hne
    have := hle (step x) (hstep x hx)
    omega
  | succ n ih =>
    rw [settle]
    split
    · assumption
    · rename_i hne
      have := hlt x hx hne
      exact ih (hstep x hx) (by omega)

theorem settled?_of_step (h : step (settle step n x) = settle step n x) :
    settled? step n x = some (settle step n x) := if_pos h

theorem settled?_induction {y : α} (hstep : ∀ x, P x → P (step x)) (hx : P x)
    (h : settled? step n x = some y) : P y := by
  unfold settled? at h
  split at h
  · cases h
    exact settle_induction hstep hx
  · cases h

theorem settled?_eq_some {y : α} : settled? step n x = some y ↔ step^[n + 1] x = step^[n] x ∧
    step^[n] x = y := by
  rw [settled?, settle_eq_iterate, Function.iterate_succ_apply', Option.ite_none_right_eq_some,
    Option.some.injEq]

/-- Where a repetition is after some number of steps, it is from then on. -/
theorem exists_iterate_of_settled? {y : α} (h : settled? step n x = some y) :
    ∃ i, ∀ m, i ≤ m → step^[m] x = y := by
  obtain ⟨hrest, rfl⟩ := settled?_eq_some.mp h
  exact ⟨n, fun m => iterate_of_rest hrest⟩

end Settle

section Marks
variable {rows columns : List String} {t t' : NameMap Names}

def marks (rows columns : List String) (t : NameMap Names) : Nat :=
  (rows ×ˢ columns).countP fun e => (t.getD e.1 ∅).contains e.2

theorem marks_le (rows columns : List String) (t : NameMap Names) :
    marks rows columns t ≤ rows.length * columns.length := by
  rw [← List.length_product]
  exact List.countP_le_length

theorem marks_lt (hkeys : ∀ x ∈ t', x ∈ t) (hrows : ∀ x ∈ t', x ∈ rows)
    (hcolumns : ∀ x, ∀ y ∈ t'.getD x ∅, y ∈ columns) (hle : Included t t') (hne : t' ≠ t) :
    marks rows columns t < marks rows columns t' := by
  have hnew : ∃ x y, y ∈ t'.getD x ∅ ∧ y ∉ t.getD x ∅ := by
    refine Classical.byContradiction fun hnone =>
      hne (Included.antisymm (included_of_mem hkeys ?_) hle)
    exact fun x y hy => Classical.byContradiction fun hn => hnone ⟨x, y, hy, hn⟩
  obtain ⟨x, y, hy, hn⟩ := hnew
  obtain ⟨u, hu, -⟩ := mem_getD_iff.mp hy
  have hx : x ∈ rows := hrows x (ExtTreeMap.mem_iff_isSome_getElem?.mpr (by rw [hu]; rfl))
  refine FlowState.countP_lt (a := (x, y)) (fun e _ he => ?_) ?_ ?_ ?_
  · exact ExtTreeSet.contains_iff_mem.mpr (hle.mem_getD (ExtTreeSet.contains_iff_mem.mp he))
  · exact List.mem_product.mpr ⟨hx, hcolumns x y hy⟩
  · exact Bool.eq_false_iff.mpr fun hc => hn (ExtTreeSet.contains_iff_mem.mp hc)
  · exact ExtTreeSet.contains_iff_mem.mpr hy

end Marks

/-- A table made from items of different names has the entry of each. -/
theorem getElem?_ofList_map {α β : Type} {key : β → String} {value : β → α} {items : List β}
    (hdistinct : (items.map key).Nodup) {b : β} (hb : b ∈ items) :
    (ExtTreeMap.ofList (items.map fun b => (key b, value b)) : NameMap α)[key b]? =
      some (value b) := by
  refine ExtTreeMap.getElem?_ofList_of_mem ReflCmp.compare_self ?_ (List.mem_map.mpr ⟨b, hb, rfl⟩)
  refine List.pairwise_map.mpr ((List.pairwise_map.mp hdistinct).imp fun hne heq => hne ?_)
  exact LawfulEqCmp.eq_of_compare heq

/-- A table made from some of the names of a set has just their entries. -/
theorem getElem?_ofList_filterMap {α : Type} (names : Names) (value : String → Option α)
    (x : String) :
    (ExtTreeMap.ofList (names.toList.filterMap fun y => (value y).map fun a => (y, a)) :
      NameMap α)[x]? = if x ∈ names then value x else none := by
  by_cases hx : x ∈ names ∧ ∃ a, value x = some a
  · obtain ⟨hx, a, ha⟩ := hx
    rw [if_pos hx, ha]
    refine ExtTreeMap.getElem?_ofList_of_mem ReflCmp.compare_self ?_ ?_
    · refine List.pairwise_filterMap.mpr (ExtTreeSet.distinct_toList.imp fun hne => ?_)
      intro p hp q hq
      obtain ⟨_, _, rfl⟩ := Option.map_eq_some_iff.mp hp
      obtain ⟨_, _, rfl⟩ := Option.map_eq_some_iff.mp hq
      exact hne
    · exact List.mem_filterMap.mpr ⟨x, ExtTreeSet.mem_toList.mpr hx, by rw [ha]; rfl⟩
  · have hnone : (if x ∈ names then value x else none) = none := by
      split
      · rename_i hmem
        exact Option.eq_none_iff_forall_ne_some.mpr fun a ha => hx ⟨hmem, a, ha⟩
      · rfl
    rw [hnone]
    refine ExtTreeMap.getElem?_ofList_of_contains_eq_false (Bool.eq_false_iff.mpr fun hmem => hx ?_)
    simpa using hmem

section Sweep
variable {α β : Type} [Named β] {entry : NameMap α → β → α} {items : List β} {t t' : NameMap α}

theorem mem_sweep {x : String} : x ∈ sweep items entry t ↔ x ∈ items.map Named.name ∨ x ∈ t := by
  induction items generalizing t with
  | nil => simp [sweep]
  | cons b items ih =>
    refine ih.trans ?_
    rw [ExtTreeMap.mem_insert, LawfulEqCmp.compare_eq_iff_eq, List.map_cons, List.mem_cons, eq_comm,
      or_left_comm, or_assoc]

theorem sweep_append (items items' : List β) (t : NameMap α) :
    sweep (items ++ items') entry t = sweep items' entry (sweep items entry t) := List.foldl_append

/-- A sweep leaves the entries of other names as they are. -/
theorem getElem?_sweep_of_not_mem {x : String} (hx : x ∉ items.map Named.name) :
    (sweep items entry t)[x]? = t[x]? := by
  induction items generalizing t with
  | nil => rfl
  | cons b items ih =>
    obtain ⟨hne, hx⟩ := not_or.mp (mt List.mem_cons.mpr hx)
    refine (ih hx).trans ?_
    rw [ExtTreeMap.getElem?_insert, if_neg (by simpa using Ne.symm hne)]

/-- The entry of an item is computed once those before it are. It finds their new entries, and the
old ones of all others. -/
theorem getElem?_sweep (entry : NameMap α → β → α) (t : NameMap α) {pre post : List β} {b : β}
    (hdistinct : ((pre ++ b :: post).map Named.name).Nodup) :
    (sweep (pre ++ b :: post) entry t)[Named.name b]? = some (entry (sweep pre entry t) b) ∧
    ∀ x, (sweep pre entry t)[x]? =
      if x ∈ pre.map Named.name then (sweep (pre ++ b :: post) entry t)[x]? else t[x]? := by
  rw [List.map_append, List.nodup_append] at hdistinct
  obtain ⟨-, hrest, hdisjoint⟩ := hdistinct
  rw [sweep_append]
  refine ⟨(getElem?_sweep_of_not_mem (List.nodup_cons.mp hrest).1).trans
    ExtTreeMap.getElem?_insert_self, fun x => ?_⟩
  split
  · rename_i hx
    exact (getElem?_sweep_of_not_mem fun hmem => hdisjoint x hx x hmem rfl).symm
  · rename_i hx
    exact getElem?_sweep_of_not_mem hx

/-- A table that a sweep leaves as it is, is so from the first item on. -/
theorem sweep_eq_of_append {pre post : List β} {b : β}
    (hdistinct : ((pre ++ b :: post).map Named.name).Nodup)
    (h : sweep (pre ++ b :: post) entry t = t) : sweep pre entry t = t := by
  refine ExtTreeMap.ext_getElem? fun {x} => ?_
  rw [(getElem?_sweep entry t hdistinct).2, h, ite_self]

/-- A table that a sweep leaves as it is has for each item the entry that is computed from it. -/
theorem getElem?_of_sweep_eq (hdistinct : (items.map Named.name).Nodup)
    (h : sweep items entry t = t) {b : β} (hb : b ∈ items) :
    t[Named.name b]? = some (entry t b) := by
  obtain ⟨pre, post, rfl⟩ := List.append_of_mem hb
  have hentry := (getElem?_sweep entry t hdistinct).1
  rwa [h, sweep_eq_of_append hdistinct h] at hentry

/-- The items of a registry have different names from the last to the first, too. -/
theorem Registry.distinct_reverse (r : Registry β) : (r.entries.reverse.map Named.name).Nodup := by
  rw [List.map_reverse]
  exact List.pairwise_reverse.mpr (r.distinct.imp Ne.symm)

/-- What each recomputed entry keeps, a sweep keeps. -/
theorem sweep_induction {P : NameMap α → Prop}
    (hstep : ∀ t, ∀ b ∈ items, P t → P (t.insert (Named.name b) (entry t b))) (ht : P t) :
    P (sweep items entry t) := by
  induction items generalizing t with
  | nil => exact ht
  | cons b items ih =>
    obtain ⟨hb, hitems⟩ : (∀ t, P t → P (t.insert (Named.name b) (entry t b))) ∧
        ∀ t, ∀ b ∈ items, P t → P (t.insert (Named.name b) (entry t b)) :=
      ⟨fun t => hstep t b (by simp), fun t b hb => hstep t b (by simp [hb])⟩
    exact ih hitems (hb t ht)

def SameOn (R : String → Prop) (t t' : NameMap α) : Prop := ∀ x, R x → t'[x]? = t[x]?

theorem SameOn.getD {R : String → Prop} (h : SameOn R t t') {x : String} (hx : R x) (default : α) :
    t'.getD x default = t.getD x default := by
  rw [ExtTreeMap.getD_eq_getD_getElem?, ExtTreeMap.getD_eq_getD_getElem?, h x hx]

/-- A sweep over the items of some names computes the same entries for them as a sweep over all
items, if those entries are computed from one another. -/
theorem SameOn.sweep {R : String → Prop} {entry' : NameMap α → β → α} {keep : β → Bool}
    (hkeep : ∀ b ∈ items, keep b = true ↔ R (Named.name b))
    (hentry : ∀ t t' : NameMap α, SameOn R t t' → ∀ b ∈ items, R (Named.name b) →
      entry' t' b = entry t b)
    (h : SameOn R t t') : SameOn R (sweep items entry t) (sweep (items.filter keep) entry' t') := by
  induction items generalizing t t' with
  | nil => exact h
  | cons b items ih =>
    obtain ⟨hb, hkeep⟩ := List.forall_mem_cons.mp hkeep
    have hrest : ∀ t t' : NameMap α, SameOn R t t' → ∀ b ∈ items, R (Named.name b) →
        entry' t' b = entry t b :=
      fun t t' h b hb => hentry t t' h b (List.mem_cons_of_mem _ hb)
    by_cases hR : R (Named.name b)
    · rw [List.filter_cons, if_pos (hb.mpr hR)]
      refine ih hkeep hrest fun x hx => ?_
      rw [ExtTreeMap.getElem?_insert, ExtTreeMap.getElem?_insert, h x hx,
        hentry t t' h b List.mem_cons_self hR]
    · rw [List.filter_cons, if_neg fun hk => hR (hb.mp hk)]
      refine ih hkeep hrest fun x hx => ?_
      have hne : ¬compare (Named.name b) x = .eq := fun heq =>
        hR (LawfulEqCmp.eq_of_compare heq ▸ hx)
      rw [ExtTreeMap.getElem?_insert, if_neg hne, h x hx]

theorem SameOn.settled [DecidableEq (NameMap α)] {R : String → Prop}
    {step step' : NameMap α → NameMap α} {n n' : Nat}
    (hstep : ∀ t t', SameOn R t t' → SameOn R (step t) (step' t')) (h : SameOn R t t')
    {u u' : NameMap α}
    (hu : settled? step n t = some u) (hu' : settled? step' n' t' = some u') : SameOn R u u' := by
  have hiterate : ∀ m, SameOn R (step^[m] t) (step'^[m] t') := by
    intro m
    induction m with
    | zero => exact h
    | succ m ih =>
      rw [Function.iterate_succ_apply', Function.iterate_succ_apply']
      exact hstep _ _ ih
  obtain ⟨i, hi⟩ := exists_iterate_of_settled? hu
  obtain ⟨i', hi'⟩ := exists_iterate_of_settled? hu'
  have hboth := hiterate (max i i')
  rwa [hi _ (Nat.le_max_left i i'), hi' _ (Nat.le_max_right i i')] at hboth

end Sweep

theorem Included.insert {α : Type} [Ord α] [TransOrd α] {a b : NameMap (ExtTreeSet α)}
    (h : Included a b) {name : String} {u v : ExtTreeSet α} (huv : ∀ y ∈ u, y ∈ v) :
    Included (a.insert name u) (b.insert name v) := by
  intro x w hw
  rw [ExtTreeMap.getElem?_insert] at hw ⊢
  by_cases hx : compare name x = .eq
  · rw [if_pos hx] at hw ⊢
    cases hw
    exact ⟨v, rfl, huv⟩
  · rw [if_neg hx] at hw ⊢
    exact h x w hw

/-- A sweep whose entries grow with the table they are computed from grows with it. -/
theorem Included.sweep {β : Type} [Named β] {entry : NameMap Names → β → Names} {items : List β}
    {t t' : NameMap Names} (hentry : ∀ (t t' : NameMap Names) b, Included t t' →
      ∀ y ∈ entry t b, y ∈ entry t' b) (h : Included t t') :
    Included (sweep items entry t) (sweep items entry t') := by
  induction items generalizing t t' with
  | nil => exact h
  | cons b items ih => exact ih (h.insert (hentry t t' b h))

end Ownership

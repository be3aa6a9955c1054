import Mathlib.Logic.Function.Iterate
import Ownership.Proofs.Fixpoint
import Ownership.Proofs.Modular

/-! # Introduced references

A name is introduced by a chain of borrows that starts at a binding. The pass that declares such
names goes through the operations once, in the order in which the blocks are listed, so it declares
the names whose chains stand in that order. A chain through blocks that are listed the other way
round needs a further pass. A pass that misses nothing is one that the next pass does not add to,
and as many passes as there are operations declare every name that is introduced.
-/
namespace Ownership
open Std

def Instruction.Lends (i : Instruction) (x y : String) : Prop := ∃ kind, i.op = .borrow x kind y

theorem Instruction.Lends.ref_unique {i : Instruction} {x x' y y' : String} (h : i.Lends x y)
    (h' : i.Lends x' y') : y = y' := by
  obtain ⟨kind, hop⟩ := h
  obtain ⟨kind', hop'⟩ := h'
  cases hop.symm.trans hop'
  rfl

inductive LendingChain : String → List Instruction → String → Prop
  | nil (x : String) : LendingChain x [] x
  | cons {x y z : String} {i : Instruction} {is : List Instruction} (hi : i.Lends x y)
      (h : LendingChain y is z) : LendingChain x (i :: is) z

theorem LendingChain.append {x y z : String} {is js : List Instruction} (h : LendingChain x is y)
    (h' : LendingChain y js z) : LendingChain x (is ++ js) z := by
  induction h with
  | nil x => exact h'
  | cons hi _ ih => exact .cons hi (ih h')

namespace Function
variable {f g : Function} {t : TypeTable} {x y : String}

def Introduces (f : Function) (y : String) : Prop :=
  ∃ x is, f.bindings.contains x = true ∧ is ⊆ f.instructions ∧ LendingChain x is y

def IntroducesInOrder (f : Function) (y : String) : Prop :=
  ∃ x is, f.bindings.contains x = true ∧ is.Sublist f.instructions ∧ LendingChain x is y

def BorrowsDeclared (f : Function) : Prop :=
  ∀ i ∈ f.instructions, ∀ x y, i.Lends x y → f.bindings.contains x = true →
    f.bindings.contains y = true

def passes (f : Function) (t : TypeTable) (n : Nat) : Function × TypeTable :=
  (fun p : Function × TypeTable => p.1.normalize p.2)^[n] (f, t)

theorem passes_succ (f : Function) (t : TypeTable) (n : Nat) :
    f.passes t (n + 1) = (f.normalize t).1.passes (f.normalize t).2 n := by
  rw [passes, Function.iterate_succ_apply, passes]

/-! ### One operation -/

theorem instructions_declareIntroduced (f : Function) (t : TypeTable) (i : Instruction) :
    (f.declareIntroduced t i).1.instructions = f.instructions := by
  obtain hsame | ⟨b, source, exclusive, -, -, -, hintroduced⟩ := f.declareIntroduced_cases t i
  · rw [hsame]
  · rw [hintroduced]
    rfl

/-- An operation has nothing to introduce, or it is a borrow from a binding for a name that is not
bound yet. -/
theorem declareIntroduced_lends (f : Function) (t : TypeTable) (i : Instruction) :
    (f.declareIntroduced t i = (f, t) ∧
      ∀ x y, i.Lends x y → f.bindings.contains x = true → f.bindings.contains y = true) ∨
    ∃ x b, i.Lends x b.name ∧ f.bindings.contains x = true ∧ f.bindings.contains b.name = false ∧
      (f.declareIntroduced t i).1 = f.addBinding b := by
  obtain ⟨op, span⟩ := i
  cases op with
  | borrow x kind ref =>
    simp only [declareIntroduced]
    cases hnew : f.bindings.contains ref with
    | true =>
      refine .inl ⟨rfl, ?_⟩
      rintro x' y ⟨_, heq⟩ -
      cases heq
      exact hnew
    | false =>
      have hsome := Registry.isSome_get? (r := f.bindings) (n := x)
      cases hx : f.bindings.get? x with
      | none =>
        refine .inl ⟨rfl, ?_⟩
        rintro x' y ⟨_, heq⟩ hx'
        cases heq
        rw [hx, hx'] at hsome
        cases hsome
      | some source =>
        rw [hx] at hsome
        exact .inr ⟨x, _, ⟨kind, rfl⟩, hsome.symm, hnew, rfl⟩
  | _ =>
    refine .inl ⟨rfl, ?_⟩
    rintro x y ⟨kind, heq⟩
    cases heq

/-- Behind an operation a name is bound if it was before, or if it is the reference of a borrow from
a binding. -/
theorem contains_declareIntroduced (f : Function) (t : TypeTable) (i : Instruction) (y : String) :
    (f.declareIntroduced t i).1.bindings.contains y = true ↔
      f.bindings.contains y = true ∨ ∃ x, i.Lends x y ∧ f.bindings.contains x = true := by
  obtain ⟨hsame, hdeclared⟩ | ⟨x, b, hlends, hx, -, hintroduced⟩ := f.declareIntroduced_lends t i
  · rw [hsame]
    exact ⟨.inl, fun h => h.elim id fun ⟨x, hlends, hx⟩ => hdeclared x y hlends hx⟩
  · have hcontains : (f.addBinding b).bindings.contains y =
        (f.bindings.contains y || b.name == y) :=
      Registry.contains_insert ..
    rw [hintroduced, hcontains, Bool.or_eq_true_iff, beq_iff_eq]
    refine or_congr_right ⟨?_, ?_⟩
    · rintro rfl
      exact ⟨x, hlends, hx⟩
    · rintro ⟨x', hlends', -⟩
      exact hlends.ref_unique hlends'

theorem declareIntroduced_of_declared {i : Instruction}
    (h : ∀ x y, i.Lends x y → f.bindings.contains x = true → f.bindings.contains y = true) :
    f.declareIntroduced t i = (f, t) := by
  obtain ⟨hsame, -⟩ | ⟨x, b, hlends, hx, hnew, -⟩ := f.declareIntroduced_lends t i
  · exact hsame
  · exact absurd (h x b.name hlends hx) (by rw [hnew]; exact Bool.false_ne_true)

/-! ### One pass -/

theorem instructions_normalize (f : Function) (t : TypeTable) :
    (f.normalize t).1.instructions = f.instructions :=
  normalize_induction (P := fun g _ => g.instructions = f.instructions)
    (fun g u i hg => (g.instructions_declareIntroduced u i).trans hg) rfl

/-- A pass over some operations binds what chains of them lead to, in their order. -/
theorem contains_foldl_declareIntroduced (is : List Instruction) (f : Function) (t : TypeTable) :
    (is.foldl (fun p i => p.1.declareIntroduced p.2 i) (f, t)).1.bindings.contains y = true ↔
      ∃ x js, f.bindings.contains x = true ∧ js.Sublist is ∧ LendingChain x js y := by
  induction is generalizing f t with
  | nil =>
    constructor
    · exact fun h => ⟨y, [], h, .slnil, .nil y⟩
    · rintro ⟨x, js, hx, hjs, hchain⟩
      obtain rfl := List.sublist_nil.mp hjs
      cases hchain
      exact hx
  | cons i is ih =>
    rw [List.foldl_cons, ih]
    constructor
    · rintro ⟨x, js, hx, hjs, hchain⟩
      rcases (f.contains_declareIntroduced t i x).mp hx with hx | ⟨w, hi, hw⟩
      · exact ⟨x, js, hx, hjs.cons i, hchain⟩
      · exact ⟨w, i :: js, hw, hjs.cons_cons i, .cons hi hchain⟩
    · rintro ⟨x, js, hx, hjs, hchain⟩
      -- a chain that does not start with this operation goes on among the others
      cases hjs with
      | cons _ hjs => exact ⟨x, js, (f.contains_declareIntroduced t i x).mpr (.inl hx), hjs, hchain⟩
      | cons_cons _ hjs =>
        cases hchain with
        | cons hi hchain =>
          exact ⟨_, _, (f.contains_declareIntroduced t i _).mpr (.inr ⟨x, hi, hx⟩), hjs, hchain⟩

/-- One pass binds the names that are introduced in order. -/
theorem contains_normalize (f : Function) (t : TypeTable) (y : String) :
    (f.normalize t).1.bindings.contains y = true ↔ f.IntroducesInOrder y :=
  contains_foldl_declareIntroduced f.instructions f t

theorem contains_normalize_of_contains (t : TypeTable) (h : f.bindings.contains x = true) :
    (f.normalize t).1.bindings.contains x = true :=
  (f.contains_normalize t x).mpr ⟨x, [], h, f.instructions.nil_sublist, .nil x⟩

theorem contains_normalize_of_lends (t : TypeTable) {i : Instruction} (hi : i ∈ f.instructions)
    (hlends : i.Lends x y) (hx : f.bindings.contains x = true) :
    (f.normalize t).1.bindings.contains y = true :=
  (f.contains_normalize t y).mpr ⟨x, [i], hx, List.singleton_sublist.mpr hi, .cons hlends (.nil y)⟩

/-- A pass changes nothing where all references of borrows from bindings are bound, and only
there. -/
theorem normalize_eq_self_iff : f.normalize t = (f, t) ↔ f.BorrowsDeclared := by
  constructor
  · intro h i hi x y hlends hx
    have hy := contains_normalize_of_lends t hi hlends hx
    rwa [h] at hy
  · intro h
    have hnone : ∀ i ∈ f.instructions, f.declareIntroduced t i = (f, t) := fun i hi =>
      declareIntroduced_of_declared (h i hi)
    rw [normalize]
    generalize f.instructions = is at hnone
    induction is with
    | nil => rfl
    | cons i is ih =>
      change is.foldl _ (f.declareIntroduced t i) = (f, t)
      rw [hnone i List.mem_cons_self]
      exact ih fun j hj => hnone j (List.mem_cons_of_mem i hj)

/-! ### Names that are introduced in any order -/

theorem IntroducesInOrder.introduces (h : f.IntroducesInOrder y) : f.Introduces y := by
  obtain ⟨x, is, hx, his, hchain⟩ := h
  exact ⟨x, is, hx, his.subset, hchain⟩

theorem Introduces.of_chain {is : List Instruction} (h : f.Introduces x) (his : is ⊆ f.instructions)
    (hchain : LendingChain x is y) : f.Introduces y := by
  obtain ⟨w, js, hw, hjs, hchain'⟩ := h
  exact ⟨w, js ++ is, hw, List.append_subset.mpr ⟨hjs, his⟩, hchain'.append hchain⟩

theorem Introduces.of_lends {i : Instruction} (h : f.Introduces x) (hi : i ∈ f.instructions)
    (hlends : i.Lends x y) : f.Introduces y :=
  h.of_chain (by simpa using hi) (.cons hlends (.nil y))

theorem Introduces.of_contains (h : f.bindings.contains x = true) : f.Introduces x :=
  ⟨x, [], h, List.nil_subset _, .nil x⟩

/-- Where all references of borrows from bindings are bound, no chain leads out of the bindings. -/
theorem BorrowsDeclared.contains (h : f.BorrowsDeclared) (hy : f.Introduces y) :
    f.bindings.contains y = true := by
  obtain ⟨x, is, hx, his, hchain⟩ := hy
  induction hchain with
  | nil x => exact hx
  | cons hi _ ih =>
    obtain ⟨hmem, his⟩ := List.cons_subset.mp his
    exact ih (h _ hmem _ _ hi hx) his

/-- A pass does not change what is introduced: the names that it binds are. -/
theorem introduces_normalize (f : Function) (t : TypeTable) (y : String) :
    (f.normalize t).1.Introduces y ↔ f.Introduces y := by
  constructor
  · rintro ⟨x, is, hx, his, hchain⟩
    rw [instructions_normalize] at his
    exact ((f.contains_normalize t x).mp hx).introduces.of_chain his hchain
  · rintro ⟨x, is, hx, his, hchain⟩
    exact ⟨x, is, contains_normalize_of_contains t hx, by rwa [instructions_normalize], hchain⟩

/-- One pass binds all references of borrows from bindings exactly if each introduced name is
introduced in order. -/
theorem borrowsDeclared_normalize_iff (f : Function) (t : TypeTable) :
    (f.normalize t).1.BorrowsDeclared ↔ ∀ y, f.Introduces y → f.IntroducesInOrder y := by
  constructor
  · intro h y hy
    exact (f.contains_normalize t y).mp (h.contains ((f.introduces_normalize t y).mpr hy))
  · intro h i hi x y hlends hx
    rw [instructions_normalize] at hi
    have hy := ((f.contains_normalize t x).mp hx).introduces.of_lends hi hlends
    exact (f.contains_normalize t y).mpr (h y hy)

/-! ### Pass after pass -/

def isUnbound (f : Function) (i : Instruction) : Bool :=
  match i.op with
  | .borrow _ _ ref => !f.bindings.contains ref
  | _ => false

theorem isUnbound_iff {i : Instruction} :
    f.isUnbound i = true ↔ ∃ x y, i.Lends x y ∧ f.bindings.contains y = false := by
  obtain ⟨op, span⟩ := i
  cases op <;> simp [isUnbound, Instruction.Lends]

def unboundBorrows (f : Function) : List Instruction := f.instructions.filter f.isUnbound

theorem unboundBorrows_normalize (f : Function) (t : TypeTable) :
    (f.normalize t).1.unboundBorrows = f.unboundBorrows.filter (f.normalize t).1.isUnbound := by
  rw [unboundBorrows, unboundBorrows, List.filter_filter, instructions_normalize]
  refine List.filter_congr fun i _ => ?_
  cases hi : (f.normalize t).1.isUnbound i with
  | false => rfl
  | true =>
    obtain ⟨x, y, hlends, hy⟩ := isUnbound_iff.mp hi
    refine (isUnbound_iff.mpr ⟨x, y, hlends, ?_⟩).symm
    rw [Bool.eq_false_iff]
    intro hold
    rw [contains_normalize_of_contains t hold] at hy
    cases hy

/-- A pass that is not the last one leaves fewer borrows whose references are not bound. -/
theorem length_unboundBorrows_normalize (t : TypeTable) (h : ¬ f.BorrowsDeclared) :
    (f.normalize t).1.unboundBorrows.length < f.unboundBorrows.length := by
  simp only [BorrowsDeclared, not_forall, Bool.not_eq_true] at h
  obtain ⟨i, hi, x, y, hlends, hx, hy⟩ := h
  have hunbound : i ∈ f.unboundBorrows :=
    List.mem_filter.mpr ⟨hi, isUnbound_iff.mpr ⟨x, y, hlends, hy⟩⟩
  rw [unboundBorrows_normalize, List.length_filter_lt_length_iff_exists]
  refine ⟨i, hunbound, fun hstill => ?_⟩
  obtain ⟨x', y', hlends', hy'⟩ := isUnbound_iff.mp hstill
  obtain rfl := hlends.ref_unique hlends'
  rw [contains_normalize_of_lends t hi hlends hx] at hy'
  cases hy'

theorem introduces_passes (f : Function) (t : TypeTable) (n : Nat) (y : String) :
    (f.passes t n).1.Introduces y ↔ f.Introduces y := by
  induction n generalizing f t with
  | zero => rfl
  | succ n ih => rw [passes_succ, ih, introduces_normalize]

theorem passes_of_borrowsDeclared (h : f.BorrowsDeclared) (n : Nat) : f.passes t n = (f, t) := by
  induction n with
  | zero => rfl
  | succ n ih => rw [passes_succ, normalize_eq_self_iff.mpr h, ih]

/-- As many passes as there are borrows whose references are not bound suffice. -/
theorem borrowsDeclared_passes {n : Nat} (hn : f.unboundBorrows.length ≤ n) :
    (f.passes t n).1.BorrowsDeclared := by
  induction n generalizing f t with
  | zero =>
    by_contra h
    have hless := length_unboundBorrows_normalize (f := f) t h
    omega
  | succ n ih =>
    by_cases h : f.BorrowsDeclared
    · rwa [passes_of_borrowsDeclared h]
    · rw [passes_succ]
      have hless := length_unboundBorrows_normalize t h
      exact ih (by omega)

/-- One pass that declares introduced references binds the names that chains of borrows lead to in
the order of the listing, and no others. A further pass changes nothing exactly if all references of
borrows from bindings are bound, and that is so exactly if the order of the listing does not matter.
As many passes as there are operations bind all names that chains of borrows lead to, whatever the
order. -/
theorem normalize_complete_iff_in_order (f : Function) (t : TypeTable) :
    (∀ y, (f.normalize t).1.bindings.contains y = true ↔ f.IntroducesInOrder y) ∧
    ((f.normalize t).1.BorrowsDeclared ↔ ∀ y, f.Introduces y → f.IntroducesInOrder y) ∧
    ((f.normalize t).1.normalize (f.normalize t).2 = f.normalize t ↔
      (f.normalize t).1.BorrowsDeclared) ∧
    ∀ n, f.instructions.length ≤ n → (f.passes t n).1.BorrowsDeclared ∧
      ∀ y, (f.passes t n).1.bindings.contains y = true ↔ f.Introduces y := by
  refine ⟨f.contains_normalize t, f.borrowsDeclared_normalize_iff t, normalize_eq_self_iff,
    fun n hn => ?_⟩
  have hdeclared : (f.passes t n).1.BorrowsDeclared :=
    borrowsDeclared_passes ((List.length_filter_le _ _).trans hn)
  refine ⟨hdeclared, fun y => ⟨fun hy => ?_, fun hy => ?_⟩⟩
  · exact (f.introduces_passes t n y).mp (.of_contains hy)
  · exact hdeclared.contains ((f.introduces_passes t n y).mpr hy)

/-- A reference is borrowed from another one, in a block that is listed before the block in which
that one is introduced and that control comes to after it. -/
def lentLate : Function :=
  ofParts "lentLate" [{ name := "x", type := 1 }]
    [{ label := "entry", body := [{ op := .init "x" none }],
       ending := some { terminator := .jump "first" } },
     { label := "second", body := [{ op := .borrow "p" .shared "q" }, { op := .use "q" }],
       ending := some { terminator := .ret none } },
     { label := "first", body := [{ op := .borrow "x" .shared "p" }],
       ending := some { terminator := .jump "second" } }]

/-- One pass declares the reference that is introduced in the block listed last, and not the one
that is borrowed from it. The check finds that the second one is not declared, and nothing after a
further pass. -/
theorem lentLate_needs_two_passes :
    ¬ (lentLate.normalize .basic).1.BorrowsDeclared ∧
    (lentLate.normalize .basic).1.normalize (lentLate.normalize .basic).2 ≠
      lentLate.normalize .basic ∧
    ({ types := (lentLate.normalize .basic).2 } : Checker).checkFunction
      (lentLate.normalize .basic).1 =
      .ok ⟨"lentLate", .malformed
        ⟨.undeclaredBinding "q", some ⟨"lentLate", "second", 0⟩, .unknown⟩⟩ ∧
    ∃ report, ({ types := (lentLate.passes .basic 2).2 } : Checker).checkFunction
      (lentLate.passes .basic 2).1 = .ok report ∧ report.accepted = true := by
  have hp : (lentLate.normalize .basic).1.bindings.contains "p" = true := by decide
  have hq : (lentLate.normalize .basic).1.bindings.contains "q" = false := by decide
  have hmissed : ¬ (lentLate.normalize .basic).1.BorrowsDeclared := by
    intro h
    have hbound := h ⟨.borrow "p" .shared "q", .unknown⟩ (by decide) "p" "q" ⟨.shared, rfl⟩ hp
    rw [hq] at hbound
    cases hbound
  have hcheck : (do
      let report ← ({ types := (lentLate.passes .basic 2).2 } : Checker).checkFunction
        (lentLate.passes .basic 2).1
      return report.accepted : Except Fault Bool) = .ok true := by decide +kernel
  obtain ⟨report, hreport, hacc⟩ := Except.bind_inv hcheck
  exact ⟨hmissed, fun hsame => hmissed (normalize_eq_self_iff.mp hsame), by decide +kernel,
    report, hreport, Except.ok.inj hacc⟩

end Function

end Ownership

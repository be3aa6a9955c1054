import Ownership.Proofs.Join

/-! # The finite universe of a function

A flow state is a set of facts: a binding is at most so good, a loan is in force, a reference may
come from a lifetime, an owner may hold a resource. The facts that can be known of a function are
finitely many, so a state that grows can grow only so often.
-/
namespace Ownership
open Std

/-- What flow states may speak of. Loans are made at a point; resources are made at a point or come
from outside, and ages above the limit are not told apart. -/
structure Vocabulary where
  bindings : List String
  points : List Location
  outside : List Location
  lifetimes : List String
  limit : Nat

inductive Fact
  | state (name : String) (rank : Fin 4)
  | loan (loan : Loan)
  | traced (name : String)
  | comesFrom (name lifetime : String)
  | holder (name : String)
  | holds (name : String) (resource : Resource)
deriving DecidableEq

namespace FlowState

/-- The facts of a state. A binding is known to be at most as good as its state. -/
def knows (s : FlowState) : Fact → Bool
  | .state x n => x ∈ s.states && (s.stateOf x).rank ≤ n
  | .loan l => l ∈ s.loans
  | .traced x => x ∈ s.provenance
  | .comesFrom x lt => lt ∈ s.provenance.getD x ∅
  | .holder x => x ∈ s.resources
  | .holds x r => r ∈ s.resources.getD x ∅

end FlowState

section Tables
variable {α : Type} [Ord α] [TransOrd α] {a b : NameMap (ExtTreeSet α)}

theorem mem_getD_iff {x : String} {y : α} : y ∈ a.getD x ∅ ↔ ∃ u, a[x]? = some u ∧ y ∈ u := by
  rw [ExtTreeMap.getD_eq_getD_getElem?]
  cases a[x]? <;> simp

theorem Included.mem (h : Included a b) {x : String} (hx : x ∈ a) : x ∈ b := by
  rw [ExtTreeMap.mem_iff_isSome_getElem?, Option.isSome_iff_exists] at hx ⊢
  obtain ⟨u, hu⟩ := hx
  obtain ⟨v, hv, _⟩ := h x u hu
  exact ⟨v, hv⟩

theorem Included.mem_getD (h : Included a b) {x : String} {y : α} (hy : y ∈ a.getD x ∅) :
    y ∈ b.getD x ∅ := by
  obtain ⟨u, hu, hy⟩ := mem_getD_iff.mp hy
  obtain ⟨v, hv, huv⟩ := h x u hu
  exact mem_getD_iff.mpr ⟨v, hv, huv y hy⟩

theorem included_of_mem (hk : ∀ x ∈ a, x ∈ b) (hv : ∀ x, ∀ y ∈ a.getD x ∅, y ∈ b.getD x ∅) :
    Included a b := by
  intro x u hu
  have hx : x ∈ a := by rw [ExtTreeMap.mem_iff_isSome_getElem?, hu]; rfl
  obtain ⟨v, hv'⟩ := Option.isSome_iff_exists.mp (ExtTreeMap.mem_iff_isSome_getElem?.mp (hk x hx))
  refine ⟨v, hv', fun y hy => ?_⟩
  obtain ⟨w, hw, hyw⟩ := mem_getD_iff.mp (hv x y (mem_getD_iff.mpr ⟨u, hu, hy⟩))
  rw [hv'] at hw
  cases hw
  exact hyw

end Tables

namespace FlowState
variable {s t : FlowState}

theorem Below.knows (h : Below s t) {φ : Fact} (hφ : s.knows φ = true) : t.knows φ = true := by
  cases φ with
  | state x n =>
    simp only [FlowState.knows, Bool.and_eq_true, decide_eq_true_eq] at hφ ⊢
    exact ⟨h.known x hφ.1, Nat.le_trans (h.states x) hφ.2⟩
  | loan l =>
    simp only [FlowState.knows, decide_eq_true_eq] at hφ ⊢
    exact h.loans l hφ
  | traced x =>
    simp only [FlowState.knows, decide_eq_true_eq] at hφ ⊢
    exact h.provenance.mem hφ
  | comesFrom x lt =>
    simp only [FlowState.knows, decide_eq_true_eq] at hφ ⊢
    exact h.provenance.mem_getD hφ
  | holder x =>
    simp only [FlowState.knows, decide_eq_true_eq] at hφ ⊢
    exact h.resources.mem hφ
  | holds x r =>
    simp only [FlowState.knows, decide_eq_true_eq] at hφ ⊢
    exact h.resources.mem_getD hφ

theorem rank_lt_four (o : OwnershipState) : o.rank < 4 := by cases o <;> decide

/-- A state above another that knows no more than it is below it too. -/
theorem Below.of_knows (h : Below s t) (hk : ∀ φ, t.knows φ = true → s.knows φ = true) :
    Below t s where
  known x hx := by
    have := hk (.state x ⟨_, rank_lt_four (t.stateOf x)⟩) (by simp [FlowState.knows, hx])
    simp only [FlowState.knows, Bool.and_eq_true, decide_eq_true_eq] at this
    exact this.1
  states x := by
    by_cases hx : x ∈ t.states
    · have := hk (.state x ⟨_, rank_lt_four (t.stateOf x)⟩) (by simp [FlowState.knows, hx])
      simp only [FlowState.knows, Bool.and_eq_true, decide_eq_true_eq] at this
      exact this.2
    · have hx' : x ∉ s.states := fun h' => hx (h.known x h')
      exact Nat.le_of_eq (by rw [stateOf_of_not_mem hx, stateOf_of_not_mem hx'])
  loans l hl := by simpa [FlowState.knows] using hk (.loan l) (by simpa [FlowState.knows] using hl)
  provenance := by
    refine included_of_mem (fun x hx => ?_) fun x y hy => ?_
    · simpa [FlowState.knows] using hk (.traced x) (by simpa [FlowState.knows] using hx)
    · simpa [FlowState.knows] using hk (.comesFrom x y) (by simpa [FlowState.knows] using hy)
  resources := by
    refine included_of_mem (fun x hx => ?_) fun x y hy => ?_
    · simpa [FlowState.knows] using hk (.holder x) (by simpa [FlowState.knows] using hx)
    · simpa [FlowState.knows] using hk (.holds x y) (by simpa [FlowState.knows] using hy)

end FlowState

namespace Vocabulary
variable (V : Vocabulary)

def makers : List Location := V.points ++ V.outside

def loans : List Loan :=
  V.bindings.flatMap fun place => (none :: V.bindings.map some).flatMap fun ref =>
    V.points.flatMap fun origin =>
      [⟨place, .exclusive, ref, origin, true⟩, ⟨place, .exclusive, ref, origin, false⟩,
        ⟨place, .shared, ref, origin, true⟩, ⟨place, .shared, ref, origin, false⟩]

def resources : List Resource :=
  V.makers.flatMap fun origin => (List.range (V.limit + 1)).map fun n : Nat => ⟨origin, n⟩

def facts : List Fact :=
  V.bindings.flatMap (fun x => [.state x 0, .state x 1, .state x 2, .state x 3]) ++
    V.loans.map .loan ++
    V.bindings.flatMap (fun x => .traced x :: V.lifetimes.map (.comesFrom x)) ++
    V.bindings.flatMap (fun x => .holder x :: V.resources.map (.holds x))

theorem length_flatMap_const {α β : Type} {g : α → List β} {n : Nat} (l : List α)
    (h : ∀ a, (g a).length = n) : (l.flatMap g).length = l.length * n := by
  induction l with
  | nil => simp
  | cons a l ih =>
    rw [List.flatMap_cons, List.length_append, h, ih, List.length_cons, Nat.succ_mul, Nat.add_comm]

theorem length_loans : V.loans.length =
    V.bindings.length * ((V.bindings.length + 1) * (V.points.length * 4)) := by
  have hrefs : (none :: V.bindings.map some).length = V.bindings.length + 1 := by simp
  rw [← hrefs]
  refine length_flatMap_const _ fun place => length_flatMap_const _ fun ref =>
    length_flatMap_const _ fun origin => ?_
  rfl

theorem length_resources :
    V.resources.length = (V.points.length + V.outside.length) * (V.limit + 1) := by
  rw [resources, length_flatMap_const _ fun origin =>
    by rw [List.length_map, List.length_range], makers,
      List.length_append]

/-- How many facts there are. -/
theorem length_facts : V.facts.length =
    V.bindings.length * 4 + V.bindings.length * ((V.bindings.length + 1) * (V.points.length * 4)) +
      V.bindings.length * (V.lifetimes.length + 1) +
      V.bindings.length * ((V.points.length + V.outside.length) * (V.limit + 1) + 1) := by
  have hstate : ∀ x, [Fact.state x 0, .state x 1, .state x 2, .state x 3].length = 4 := fun x => rfl
  have hfrom : ∀ x, (Fact.traced x :: V.lifetimes.map (.comesFrom x)).length =
      V.lifetimes.length + 1 := by simp
  have hholds : ∀ x, (Fact.holder x :: V.resources.map (.holds x)).length =
      (V.points.length + V.outside.length) * (V.limit + 1) + 1 := by simp [length_resources]
  simp only [facts, List.length_append, List.length_map, length_loans,
    length_flatMap_const _ hstate, length_flatMap_const _ hfrom, length_flatMap_const _ hholds]

structure HasLoan (l : Loan) : Prop where
  place : l.place ∈ V.bindings
  ref : ∀ r ∈ l.ref, r ∈ V.bindings
  origin : l.origin ∈ V.points

structure HasResource (r : Resource) : Prop where
  origin : r.origin ∈ V.makers
  young : 0 ≤ r.generation
  old : r.generation ≤ V.limit

variable {V}

theorem HasLoan.mem_loans {l : Loan} (h : V.HasLoan l) : l ∈ V.loans := by
  obtain ⟨place, kind, ref, origin, temporary⟩ := l
  obtain ⟨hp, hr, ho⟩ := h
  refine List.mem_flatMap.mpr
    ⟨place, hp, List.mem_flatMap.mpr ⟨ref, ?_, List.mem_flatMap.mpr ⟨origin, ho, ?_⟩⟩⟩
  · cases ref with
    | none => simp
    | some r => simpa using hr r rfl
  · cases kind <;> cases temporary <;> simp

theorem HasResource.mem_resources {r : Resource} (h : V.HasResource r) : r ∈ V.resources := by
  obtain ⟨origin, generation⟩ := r
  obtain ⟨ho, hy, hl⟩ := h
  refine List.mem_flatMap.mpr ⟨origin, ho, List.mem_map.mpr ⟨generation.toNat, ?_, ?_⟩⟩
  · rw [List.mem_range]
    simp only at hy hl
    omega
  · simp only [Resource.mk.injEq, true_and]
    exact Int.toNat_of_nonneg hy

end Vocabulary

namespace FlowState
variable {V : Vocabulary} {s t : FlowState}

structure Inside (V : Vocabulary) (s : FlowState) : Prop where
  states : ∀ x ∈ s.states, x ∈ V.bindings
  loans : ∀ l ∈ s.loans, V.HasLoan l
  provenance : ∀ (x : String) (lts : Names), s.provenance[x]? = some lts →
    x ∈ V.bindings ∧ ∀ lt ∈ lts, lt ∈ V.lifetimes
  resources : ∀ (x : String) (held : Resources), s.resources[x]? = some held →
    x ∈ V.bindings ∧ ∀ r ∈ held, V.HasResource r

theorem Inside.mem_facts (h : s.Inside V) {φ : Fact} (hφ : s.knows φ = true) : φ ∈ V.facts := by
  have hget : ∀ {α : Type} {m : NameMap α} {x : String}, x ∈ m → ∃ u, m[x]? = some u := fun hx =>
    Option.isSome_iff_exists.mp (ExtTreeMap.mem_iff_isSome_getElem?.mp hx)
  simp only [Vocabulary.facts, List.mem_append, List.mem_flatMap, List.mem_map]
  cases φ with
  | state x n =>
    simp only [FlowState.knows, Bool.and_eq_true, decide_eq_true_eq] at hφ
    refine Or.inl (Or.inl (Or.inl ⟨x, h.states x hφ.1, ?_⟩))
    match n with
    | 0 | 1 | 2 | 3 => simp
  | loan l =>
    simp only [FlowState.knows, decide_eq_true_eq] at hφ
    exact Or.inl (Or.inl (Or.inr ⟨l, (h.loans l hφ).mem_loans, rfl⟩))
  | traced x =>
    simp only [FlowState.knows, decide_eq_true_eq] at hφ
    obtain ⟨u, hu⟩ := hget hφ
    exact Or.inl (Or.inr ⟨x, (h.provenance x u hu).1, by simp⟩)
  | comesFrom x lt =>
    simp only [FlowState.knows, decide_eq_true_eq] at hφ
    obtain ⟨u, hu, hlt⟩ := mem_getD_iff.mp hφ
    obtain ⟨hx, hlts⟩ := h.provenance x u hu
    exact Or.inl (Or.inr ⟨x, hx, by simpa using hlts lt hlt⟩)
  | holder x =>
    simp only [FlowState.knows, decide_eq_true_eq] at hφ
    obtain ⟨u, hu⟩ := hget hφ
    exact Or.inr ⟨x, (h.resources x u hu).1, by simp⟩
  | holds x r =>
    simp only [FlowState.knows, decide_eq_true_eq] at hφ
    obtain ⟨u, hu, hr⟩ := mem_getD_iff.mp hφ
    obtain ⟨hx, hrs⟩ := h.resources x u hu
    exact Or.inr ⟨x, hx, by simpa using (hrs r hr).mem_resources⟩

def weight (V : Vocabulary) (s : FlowState) : Nat := V.facts.countP s.knows

theorem weight_le (V : Vocabulary) (s : FlowState) : s.weight V ≤ V.facts.length :=
  List.countP_le_length

theorem countP_lt {α : Type} {p q : α → Bool} {l : List α}
    (h : ∀ a ∈ l, p a = true → q a = true) {a : α} (ha : a ∈ l) (hp : p a = false)
    (hq : q a = true) : l.countP p < l.countP q := by
  induction l with
  | nil => cases ha
  | cons b l ih =>
    obtain ⟨hb, hl⟩ := List.forall_mem_cons.mp h
    have hmono := List.countP_mono_left hl
    rw [List.countP_cons, List.countP_cons]
    rcases List.mem_cons.mp ha with rfl | ha
    · simp only [hp, hq, Bool.false_eq_true, ↓reduceIte]
      omega
    · have hlt := ih hl ha
      by_cases hpb : p b = true
      · simp only [hpb, hb hpb, ↓reduceIte]
        omega
      · simp only [hpb, Bool.false_eq_true, ↓reduceIte]
        omega

/-- A state that learns something weighs more. -/
theorem Below.weight_lt (h : Below s t) (hn : ¬Below t s) (ht : t.Inside V) :
    s.weight V < t.weight V := by
  have hnew : ∃ φ, t.knows φ = true ∧ ¬s.knows φ = true := by
    refine Classical.byContradiction fun hno => hn (h.of_knows fun φ hφ => ?_)
    exact Decidable.byContradiction fun hs => hno ⟨φ, hφ, hs⟩
  obtain ⟨φ, hφ, hs⟩ := hnew
  exact countP_lt (fun ψ _ => h.knows) (ht.mem_facts hφ) (Bool.eq_false_iff.mpr hs) hφ

end FlowState

end Ownership

import Mathlib.Logic.Relation
import Ownership.Lifetime
import Ownership.Proofs.Access
import Ownership.Proofs.Settle

/-! # The order of lifetimes

The bounds of a signature are closed under transitivity when the repetition that collects them ends.
So what is left of a lifetime after its longer members are dropped still bounds every member, and a
reference that depends on fewer names keeps every promise that one which depends on more keeps.
-/
namespace Ownership
open Std

namespace LifetimeOrder
variable {bounds : List (String × String)} {params : Names} {t : NameMap Names}

/-- What is known of the order while it is collected: the names are the parameters, and a name that
is said to live longer does so by a chain of bounds. -/
structure Collected (params : Names) (bounds : List (String × String))
    (t : NameMap Names) : Prop where
  keys : ∀ x, x ∈ t ↔ x ∈ params
  chained : ∀ x, ∀ y ∈ t.getD x ∅, Relation.ReflTransGen (fun a b => (a, b) ∈ bounds) y x
  members : ∀ x, ∀ y ∈ t.getD x ∅, y ∈ params

theorem mem_getD_propagate {b : String × String} {x y : String} :
    y ∈ (propagate t b).getD x ∅ ↔ y ∈ t.getD x ∅ ∨ (x = b.2 ∧ y ∈ t.getD b.1 ∅) := by
  rw [propagate, ExtTreeMap.getD_insert]
  split
  · rename_i heq
    have hx : x = b.2 := (LawfulEqCmp.eq_of_compare heq).symm
    subst hx
    simp
  · rename_i hne
    have hx : x ≠ b.2 := fun h => hne (by rw [h]; exact ReflCmp.compare_self)
    simp [hx]

theorem included_propagate (b : String × String) : Included t (propagate t b) := by
  refine included_of_mem (fun x hx => ?_) fun x y hy => mem_getD_propagate.mpr (Or.inl hy)
  rw [propagate, ExtTreeMap.mem_insert]
  exact Or.inr hx

theorem included_foldl_propagate (bs : List (String × String)) (t : NameMap Names) :
    Included t (bs.foldl propagate t) := by
  induction bs generalizing t with
  | nil => exact .refl t
  | cons b bs ih => exact (included_propagate b).trans (ih _)

/-- A round of the collection hands on what is known of the longer name of every bound. -/
theorem mem_getD_foldl_propagate {bs : List (String × String)} {b : String × String} (hb : b ∈ bs)
    {y : String} (hy : y ∈ t.getD b.1 ∅) : y ∈ (bs.foldl propagate t).getD b.2 ∅ := by
  induction bs generalizing t with
  | nil => cases hb
  | cons b' bs ih =>
    rcases List.mem_cons.mp hb with rfl | hb
    · have hstep : y ∈ (propagate t b).getD b.2 ∅ := mem_getD_propagate.mpr (Or.inr ⟨rfl, hy⟩)
      exact (included_foldl_propagate bs _).mem_getD hstep
    · exact ih hb ((included_propagate b').mem_getD hy)

theorem Collected.propagate (h : Collected params bounds t) {b : String × String} (hb : b ∈ bounds)
    (hp : b.2 ∈ params) : Collected params bounds (propagate t b) where
  keys x := by
    rw [LifetimeOrder.propagate, ExtTreeMap.mem_insert, LawfulEqCmp.compare_eq_iff_eq, h.keys]
    constructor
    · rintro (rfl | hx)
      · exact hp
      · exact hx
    · exact Or.inr
  chained x y hy := by
    rcases mem_getD_propagate.mp hy with hold | ⟨rfl, hnew⟩
    · exact h.chained x y hold
    · exact (h.chained b.1 y hnew).tail hb
  members x y hy := by
    rcases mem_getD_propagate.mp hy with hy | ⟨-, hy⟩
    · exact h.members x y hy
    · exact h.members b.1 y hy

theorem Collected.foldl_propagate (hp : ∀ b ∈ bounds, b.2 ∈ params) {bs : List (String × String)}
    (hbs : ∀ b ∈ bs, b ∈ bounds) (h : Collected params bounds t) :
    Collected params bounds (bs.foldl LifetimeOrder.propagate t) := by
  induction bs generalizing t with
  | nil => exact h
  | cons b bs ih =>
    obtain ⟨hb, hbs⟩ := List.forall_mem_cons.mp hbs
    exact ih hbs (h.propagate hb (hp b hb))

def pairs (params : Names) : NameMap Names → Nat := marks params.toList params.toList

theorem pairs_le (params : Names) (t : NameMap Names) :
    pairs params t ≤ params.size * params.size := by
  have hle := marks_le params.toList params.toList t
  rwa [ExtTreeSet.length_toList] at hle

theorem pairs_lt {t' : NameMap Names} (h : Collected params bounds t)
    (h' : Collected params bounds t') (hle : Included t t') (hne : t' ≠ t) :
    pairs params t < pairs params t' := by
  refine marks_lt (fun x hx => (h.keys x).mpr ((h'.keys x).mp hx)) (fun x hx => ?_)
    (fun x y hy => ?_) hle hne
  · exact ExtTreeSet.mem_toList.mpr ((h'.keys x).mp hx)
  · exact ExtTreeSet.mem_toList.mpr (h'.members x y hy)

def start (params : Names) : NameMap Names := .ofList (params.toList.map fun p => (p, {p}))

theorem getElem?_start {x : String} (hx : x ∈ params) : (start params)[x]? = some {x} := by
  have hdistinct : (params.toList.map fun p => (p, ({p} : Names))).Pairwise fun a b =>
    ¬compare a.1 b.1 = .eq :=
      List.pairwise_map.mpr params.distinct_toList
  have hentry : (x, ({x} : Names)) ∈ params.toList.map fun p => (p, ({p} : Names)) :=
    List.mem_map.mpr ⟨x, ExtTreeSet.mem_toList.mpr hx, rfl⟩
  exact ExtTreeMap.getElem?_ofList_of_mem ReflCmp.compare_self hdistinct hentry

theorem collected_start (params : Names) (bounds : List (String × String)) :
    Collected params bounds (start params) := by
  have hkeys : ∀ x, x ∈ start params ↔ x ∈ params := by simp [start]
  have hmem : ∀ x y, y ∈ (start params).getD x ∅ → y = x ∧ x ∈ params := by
    intro x y hy
    obtain ⟨u, hu, hy⟩ := mem_getD_iff.mp hy
    have hx : x ∈ params := (hkeys x).mp (ExtTreeMap.mem_iff_isSome_getElem?.mpr (by rw [hu]; rfl))
    cases hu.symm.trans (getElem?_start hx)
    exact ⟨(show x = y by simpa using hy).symm, hx⟩
  refine ⟨hkeys, fun x y hy => ?_, fun x y hy => ?_⟩
  · rw [(hmem x y hy).1]
  · rw [(hmem x y hy).1]
    exact (hmem x y hy).2

def collect (params : Names) (bounds : List (String × String)) : NameMap Names :=
  settle (bounds.foldl propagate) (params.size * params.size + 1) (start params)

/-- The collection begins with each name living as long as itself, and forgets nothing. -/
theorem self_mem_collect {x : String} (hx : x ∈ params) : x ∈ (collect params bounds).getD x ∅ := by
  have hgrown : Included (start params) (collect params bounds) :=
    settle_induction (fun t ht => ht.trans (included_foldl_propagate bounds t)) (.refl _)
  exact hgrown.mem_getD (mem_getD_iff.mpr ⟨{x}, getElem?_start hx, by simp⟩)

section Collect
variable (hp : ∀ b ∈ bounds, b.2 ∈ params)
include hp

theorem collected_collect : Collected params bounds (collect params bounds) :=
  settle_induction (fun _ ht => ht.foldl_propagate hp fun _ hb => hb)
    (collected_start params bounds)

/-- The collection comes to rest. -/
theorem foldl_propagate_collect :
    bounds.foldl propagate (collect params bounds) = collect params bounds := by
  have hround : ∀ t, Collected params bounds t →
      Collected params bounds (bounds.foldl propagate t) :=
    fun t ht => ht.foldl_propagate hp fun _ hb => hb
  have hgrow : ∀ t, Collected params bounds t → bounds.foldl propagate t ≠ t →
      pairs params t < pairs params (bounds.foldl propagate t) :=
    fun t ht hne => pairs_lt ht (hround t ht) (included_foldl_propagate bounds t) hne
  exact step_settle hround hgrow (fun t _ => pairs_le params t)
    (collected_start params bounds) (by omega)

/-- What lives longer than a name lives longer than all that a chain of bounds leads to from
there. -/
theorem mem_collect_of_chain {a b c : String} (hab : a ∈ (collect params bounds).getD b ∅)
    (hchain : Relation.ReflTransGen (fun x y => (x, y) ∈ bounds) b c) :
    a ∈ (collect params bounds).getD c ∅ := by
  induction hchain with
  | refl => exact hab
  | tail _ hxy ih =>
    have hnext := mem_getD_foldl_propagate hxy ih
    rwa [foldl_propagate_collect hp] at hnext

/-- What lives longer than a name that lives longer than another lives longer than that one. -/
theorem collect_trans {a b c : String} (hab : a ∈ (collect params bounds).getD b ∅)
    (hbc : b ∈ (collect params bounds).getD c ∅) : a ∈ (collect params bounds).getD c ∅ :=
  mem_collect_of_chain hp hab ((collected_collect hp).chained c b hbc)

end Collect

variable {o : LifetimeOrder} {a b c : String} {lt lt' required : Lifetime}

def Transitive (o : LifetimeOrder) : Prop :=
  ∀ a b c, a ∈ o.longer.getD b ∅ → b ∈ o.longer.getD c ∅ → a ∈ o.longer.getD c ∅

theorem snd_mem_params_ofBounds {names staticLike : List String} {e : String × String}
    (he : e ∈ bounds) : e.2 ∈ (ofBounds names bounds staticLike).params := by
  have hin : e.2 ∈ names ++ bounds.flatMap fun e => [e.1, e.2] :=
    List.mem_append_right _ (List.mem_flatMap.mpr ⟨e, he, by simp⟩)
  simpa [ofBounds] using hin

theorem transitive_ofBounds (names : List String) (bounds : List (String × String))
    (staticLike : List String) : (ofBounds names bounds staticLike).Transitive := by
  intro a b c hab hbc
  have hp : ∀ e ∈ bounds, e.2 ∈ (ofBounds names bounds staticLike).params := fun _ he =>
    snd_mem_params_ofBounds he
  exact collect_trans hp hab hbc

/-- What is said to live longer does so by a chain of the bounds. -/
theorem chained_ofBounds {names staticLike : List String} {x y : String}
    (h : x ∈ (ofBounds names bounds staticLike).longer.getD y ∅) :
    Relation.ReflTransGen (fun a b => (a, b) ∈ bounds) x y := by
  have hp : ∀ e ∈ bounds, e.2 ∈ (ofBounds names bounds staticLike).params := fun _ he =>
    snd_mem_params_ofBounds he
  exact (collected_collect hp).chained y x h

theorem transitive_ofSignature {types : TypeTable} {s : Signature}
    (h : ofSignature types s = .ok o) : o.Transitive := by
  obtain ⟨names, -, h⟩ := Except.bind_inv h
  cases h
  exact transitive_ofBounds _ _ _

theorem outlives_iff : o.outlives a b = true ↔ a = b ∨ o.isStatic a = true ∨
    a ∈ o.longer.getD b ∅ := by
  simp [outlives, isStatic, or_assoc]

theorem outlives_trans (ho : o.Transitive) (hb : o.isStatic b = false) (hab : o.outlives a b = true)
    (hbc : o.outlives b c = true) : o.outlives a c = true := by
  rcases outlives_iff.mp hab with rfl | hstatic | hab
  · exact hbc
  · exact outlives_iff.mpr (Or.inr (Or.inl hstatic))
  · rcases outlives_iff.mp hbc with rfl | hstatic | hbc
    · exact outlives_iff.mpr (Or.inr (Or.inr hab))
    · rw [hb] at hstatic
      cases hstatic
    · exact outlives_iff.mpr (Or.inr (Or.inr (ho a b c hab hbc)))

/-- A name is dropped if it is looked at while a name that lives strictly shorter is kept. -/
theorem mem_prune_iff {kept : Names} {name x : String} : x ∈ o.prune kept name ↔
    x ∈ kept ∧ (x = name → ∀ y ∈ kept, o.outlives x y = true → o.outlives y x = true) := by
  have hself : o.outlives name name = true := outlives_iff.mpr (.inl rfl)
  have hdrop : (kept.contains name && kept.toList.any fun other =>
      other != name && o.outlives name other && !o.outlives other name) = true ↔
      name ∈ kept ∧ ∃ y ∈ kept, o.outlives name y = true ∧ o.outlives y name = false := by
    simp only [Bool.and_eq_true, List.any_eq_true, ExtTreeSet.contains_iff_mem,
      ExtTreeSet.mem_toList, bne_iff_ne, ne_eq, Bool.not_eq_true']
    refine and_congr_right fun _ => exists_congr fun y => and_congr_right fun _ =>
      and_congr_left fun hy => ?_
    refine and_iff_right ?_
    rintro rfl
    rw [hself] at hy
    cases hy
  rw [prune]
  split
  · rename_i hcond
    obtain ⟨-, y, hy, hlong, hshort⟩ := hdrop.mp hcond
    rw [ExtTreeSet.mem_erase]
    constructor
    · rintro ⟨hne, hx⟩
      exact ⟨hx, fun heq => absurd (heq ▸ ReflCmp.compare_self) hne⟩
    · rintro ⟨hx, hkeep⟩
      refine ⟨fun heq => ?_, hx⟩
      obtain rfl := LawfulEqCmp.eq_of_compare heq
      rw [hkeep rfl y hy hlong] at hshort
      cases hshort
  · rename_i hcond
    refine (and_iff_left_of_imp fun hx => ?_).symm
    rintro rfl y hy hlong
    refine Decidable.byContradiction fun hshort => hcond (hdrop.mpr ⟨hx, y, hy, hlong, ?_⟩)
    exact Bool.eq_false_iff.mpr hshort

structure BoundedBy (o : LifetimeOrder) (members kept : Names) : Prop where
  subset : ∀ x ∈ kept, x ∈ members
  outlived : ∀ x ∈ members, ∃ y ∈ kept, o.outlives x y = true

theorem BoundedBy.prune (ho : o.Transitive) {members kept : Names}
    (hmem : ∀ x ∈ members, o.isStatic x = false) (h : o.BoundedBy members kept) (name : String) :
    o.BoundedBy members (o.prune kept name) := by
  refine ⟨fun x hx => h.subset x (mem_prune_iff.mp hx).1, fun x hx => ?_⟩
  obtain ⟨y, hy, hxy⟩ := h.outlived x hx
  by_cases hdropped : y = name ∧ ∃ z ∈ kept, o.outlives y z = true ∧ o.outlives z y ≠ true
  · -- what makes the name fall is kept, and takes its place
    obtain ⟨rfl, z, hz, hyz, hzy⟩ := hdropped
    refine ⟨z, mem_prune_iff.mpr ⟨hz, ?_⟩, outlives_trans ho (hmem y (h.subset y hy)) hxy hyz⟩
    rintro rfl
    exact absurd hyz hzy
  · refine ⟨y, mem_prune_iff.mpr ⟨hy, fun heq z hz hyz => ?_⟩, hxy⟩
    exact Decidable.byContradiction fun hzy => hdropped ⟨heq, z, hz, hyz, hzy⟩

theorem BoundedBy.foldl_prune (ho : o.Transitive) {members kept : Names}
    (hmem : ∀ x ∈ members, o.isStatic x = false) (h : o.BoundedBy members kept) (l : List String) :
    o.BoundedBy members (l.foldl o.prune kept) := by
  induction l generalizing kept with
  | nil => exact h
  | cons name l ih => exact ih (h.prune ho hmem name)

def mortal (o : LifetimeOrder) (lt : Lifetime) : Names := lt.filter fun name => !o.isStatic name

theorem mem_mortal {x : String} : x ∈ o.mortal lt ↔ x ∈ lt ∧ o.isStatic x = false := by
  simp [mortal]

theorem boundedBy_foldl_prune (ho : o.Transitive) (lt : Lifetime) (l : List String) :
    o.BoundedBy (o.mortal lt) (l.foldl o.prune (o.mortal lt)) := by
  refine BoundedBy.foldl_prune ho (fun x hx => (mem_mortal.mp hx).2)
    ⟨fun _ hx => hx, fun x hx => ⟨x, hx, ?_⟩⟩ l
  exact outlives_iff.mpr (Or.inl rfl)

theorem boundedBy_normalize (ho : o.Transitive) (lt : Lifetime) :
    o.BoundedBy (o.mortal lt) (o.normalize lt) :=
  boundedBy_foldl_prune ho lt _

/-- A lifetime that stands where another is promised: each of its mortal names outlives a mortal
name of the promise. -/
theorem satisfies_iff (ho : o.Transitive) : o.satisfies lt required = true ↔
    ∀ x ∈ o.mortal lt, ∃ y ∈ o.mortal required, o.outlives x y = true := by
  have hlt := boundedBy_normalize ho lt
  have hrequired := boundedBy_normalize ho required
  have hmortal : ∀ {lt : Lifetime} {x : String}, x ∈ o.mortal lt → o.isStatic x = false := fun hx =>
    (mem_mortal.mp hx).2
  have hbound : (∀ x ∈ o.normalize lt, ∃ y ∈ o.normalize required, o.outlives x y = true) ↔
      ∀ x ∈ o.mortal lt, ∃ y ∈ o.mortal required, o.outlives x y = true := by
    constructor
    · intro h x hx
      obtain ⟨z, hz, hxz⟩ := hlt.outlived x hx
      obtain ⟨y, hy, hzy⟩ := h z hz
      exact ⟨y, hrequired.subset y hy, outlives_trans ho (hmortal (hlt.subset z hz)) hxz hzy⟩
    · intro h x hx
      obtain ⟨z, hz, hxz⟩ := h x (hlt.subset x hx)
      obtain ⟨y, hy, hzy⟩ := hrequired.outlived z hz
      exact ⟨y, hy, outlives_trans ho (hmortal hz) hxz hzy⟩
  rw [← hbound, satisfies]
  split
  · -- an empty promise is one that no mortal name keeps
    rename_i hempty
    have hnone := ExtTreeSet.eq_empty_iff_forall_not_mem.mp (ExtTreeSet.isEmpty_iff.mp hempty)
    rw [ExtTreeSet.isEmpty_iff, ExtTreeSet.eq_empty_iff_forall_not_mem]
    refine forall_congr' fun x => imp_congr_right fun _ => ?_
    simp only [false_iff, not_exists, not_and]
    exact fun y hy => absurd hy (hnone y)
  · simp only [List.all_eq_true, List.any_eq_true, ExtTreeSet.mem_toList]

/-- Names that are dropped do not matter for the promises that a reference keeps. -/
theorem satisfies_normalize (ho : o.Transitive) : o.satisfies (o.normalize lt) required = true ↔
    o.satisfies lt required = true := by
  have hlt := boundedBy_normalize ho lt
  rw [satisfies_iff ho, satisfies_iff ho]
  constructor
  · intro h x hx
    obtain ⟨z, hz, hxz⟩ := hlt.outlived x hx
    have hstatic := (mem_mortal.mp (hlt.subset z hz)).2
    obtain ⟨y, hy, hzy⟩ := h z (mem_mortal.mpr ⟨hz, hstatic⟩)
    exact ⟨y, hy, outlives_trans ho hstatic hxz hzy⟩
  · exact fun h x hx => h x (hlt.subset x (mem_mortal.mp hx).1)

/-- A reference that depends on fewer names keeps the same promises. -/
theorem satisfies_of_subset (ho : o.Transitive) (hsub : ∀ x ∈ lt, x ∈ lt')
    (h : o.satisfies (o.normalize lt') required = true) :
    o.satisfies (o.normalize lt) required = true := by
  rw [satisfies_normalize ho, satisfies_iff ho] at h ⊢
  exact fun x hx => h x (mem_mortal.mpr ⟨hsub x (mem_mortal.mp hx).1, (mem_mortal.mp hx).2⟩)

end LifetimeOrder

end Ownership

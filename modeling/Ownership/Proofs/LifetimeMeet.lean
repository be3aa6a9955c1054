import Ownership.Proofs.LifetimeOrder

/-! # Lifetimes under their meet

A lifetime is bound by those of its members that do not live for ever and outlive no member that
lives strictly shorter. Members that outlive each other bind it together. These are the names that
are left when the others are dropped one by one, in whatever order that is done: what binds the
lifetime is never dropped, and whatever does not outlives something that does.

Lifetimes are ordered by what they may stand for. In this order the meet of two is their greatest
lower bound.
-/
namespace Ownership
open Std

namespace LifetimeOrder
variable {o : LifetimeOrder} {a b c lt : Lifetime} {x y : String} {kept : Names}
    {l members : List String}

def Binds (o : LifetimeOrder) (lt : Lifetime) (x : String) : Prop :=
  x ∈ o.mortal lt ∧ ∀ y ∈ o.mortal lt, o.outlives x y = true → o.outlives y x = true

theorem mem_of_mem_foldl_prune (h : x ∈ l.foldl o.prune kept) : x ∈ kept := by
  induction l generalizing kept with
  | nil => exact h
  | cons name l ih => exact (mem_prune_iff.mp (ih h)).1

/-- What binds the lifetime is never dropped. -/
theorem Binds.mem_foldl_prune (hx : o.Binds lt x) (hkept : ∀ y ∈ kept, y ∈ o.mortal lt)
    (h : x ∈ kept) : x ∈ l.foldl o.prune kept := by
  induction l generalizing kept with
  | nil => exact h
  | cons name l ih =>
    refine ih (fun y hy => hkept y (mem_prune_iff.mp hy).1)
      (mem_prune_iff.mpr ⟨h, fun _ y hy hxy => ?_⟩)
    exact hx.2 y (hkept y hy) hxy

/-- Of two names that are left, one of which has been looked at, that one does not live strictly
longer. -/
theorem outlives_of_mem_foldl_prune (hl : x ∈ l) (hx : x ∈ l.foldl o.prune kept)
    (hy : y ∈ l.foldl o.prune kept) (hxy : o.outlives x y = true) : o.outlives y x = true := by
  induction l generalizing kept with
  | nil => cases hl
  | cons name l ih =>
    rcases List.mem_cons.mp hl with rfl | hl
    · -- both are still there when the name is looked at
      have hstays := mem_prune_iff.mp (mem_of_mem_foldl_prune hx)
      have hother := mem_prune_iff.mp (mem_of_mem_foldl_prune hy)
      exact hstays.2 rfl y hother.1 hxy
    · exact ih hl hx hy

/-- The names that are left when all have been looked at, in any order, are those that bind the
lifetime. -/
theorem mem_foldl_prune_iff (ho : o.Transitive) (hl : ∀ x ∈ o.mortal lt, x ∈ l) :
    x ∈ l.foldl o.prune (o.mortal lt) ↔ o.Binds lt x := by
  constructor
  · intro hx
    have hbounded := boundedBy_foldl_prune ho lt l
    have hmem := hbounded.subset x hx
    refine ⟨hmem, fun y hy hxy => ?_⟩
    obtain ⟨z, hz, hyz⟩ := hbounded.outlived y hy
    have hy' := (mem_mortal.mp hy).2
    have hz' := (mem_mortal.mp (hbounded.subset z hz)).2
    have hzx := outlives_of_mem_foldl_prune (hl x hmem) hx hz (outlives_trans ho hy' hxy hyz)
    exact outlives_trans ho hz' hyz hzx
  · exact fun hx => hx.mem_foldl_prune (fun _ hy => hy) hx.1

theorem mem_normalize_iff (ho : o.Transitive) : x ∈ o.normalize lt ↔ o.Binds lt x :=
  mem_foldl_prune_iff ho fun _ hx => ExtTreeSet.mem_toList.mpr hx

section Order

/-- Drops a name if some member that is still kept lives strictly shorter; the members are gone
through in the order of a list. -/
def pruneAlong (o : LifetimeOrder) (members : List String) (kept : Names) (name : String) : Names :=
  if members.any fun other =>
      other != name && kept.contains other && kept.contains name && o.outlives name other &&
        !o.outlives other name
  then kept.erase name else kept

def normalizeAlong (o : LifetimeOrder) (members : List String) : Names :=
  members.foldl (o.pruneAlong members) (.ofList members)

theorem pruneAlong_eq (h : ∀ x ∈ kept, x ∈ members) (name : String) :
    o.pruneAlong members kept name = o.prune kept name := by
  have hcond :
      (members.any fun other => other != name && kept.contains other && kept.contains name &&
      o.outlives name other && !o.outlives other name) =
        (kept.contains name && kept.toList.any fun other =>
        other != name && o.outlives name other && !o.outlives other name) := by
    rw [Bool.eq_iff_iff]
    simp only [List.any_eq_true, Bool.and_eq_true, ExtTreeSet.contains_iff_mem,
      ExtTreeSet.mem_toList]
    constructor
    · rintro ⟨y, -, ⟨⟨⟨hne, hy⟩, hname⟩, hlong⟩, hshort⟩
      exact ⟨hname, y, hy, ⟨hne, hlong⟩, hshort⟩
    · rintro ⟨hname, y, hy, ⟨hne, hlong⟩, hshort⟩
      exact ⟨y, h y hy, ⟨⟨⟨hne, hy⟩, hname⟩, hlong⟩, hshort⟩
  rw [pruneAlong, prune, hcond]

theorem foldl_pruneAlong_eq (h : ∀ x ∈ kept, x ∈ members) :
    l.foldl (o.pruneAlong members) kept = l.foldl o.prune kept := by
  induction l generalizing kept with
  | nil => rfl
  | cons name l ih =>
    rw [List.foldl_cons, List.foldl_cons, pruneAlong_eq h name]
    exact ih fun x hx => h x (mem_prune_iff.mp hx).1

/-- The order in which the members are listed does not matter. -/
theorem normalizeAlong_eq (ho : o.Transitive) (h : ∀ x, x ∈ members ↔ x ∈ o.mortal lt) :
    o.normalizeAlong members = o.normalize lt := by
  have hstart : (.ofList members : Names) = o.mortal lt := by
    apply ExtTreeSet.ext_mem
    intro x
    rw [← h x]
    simp
  rw [normalizeAlong, hstart, foldl_pruneAlong_eq fun x hx => (h x).mpr hx]
  apply ExtTreeSet.ext_mem
  intro x
  rw [mem_foldl_prune_iff ho fun x hx => (h x).mpr hx, mem_normalize_iff ho]

end Order

section Laws
variable (ho : o.Transitive)
include ho

/-- Members that do not bind a lifetime may be left out. -/
theorem normalize_eq_of_subset (hsub : ∀ x ∈ o.mortal a, x ∈ o.mortal b)
    (hbinds : ∀ x, o.Binds b x → x ∈ a) : o.normalize a = o.normalize b := by
  apply ExtTreeSet.ext_mem
  intro x
  rw [mem_normalize_iff ho, mem_normalize_iff ho]
  constructor
  · rintro ⟨hx, hleast⟩
    refine ⟨hsub x hx, fun y hy hxy => ?_⟩
    have hy' := (mem_mortal.mp hy).2
    obtain ⟨z, hz, hyz⟩ := (boundedBy_normalize ho b).outlived y hy
    have hz := (mem_normalize_iff ho).mp hz
    have hz' := (mem_mortal.mp hz.1).2
    have hzx := hleast z (mem_mortal.mpr ⟨hbinds z hz, hz'⟩) (outlives_trans ho hy' hxy hyz)
    exact outlives_trans ho hz' hyz hzx
  · intro hx
    have hx' := (mem_mortal.mp hx.1).2
    exact ⟨mem_mortal.mpr ⟨hbinds x hx, hx'⟩, fun y hy hxy => hx.2 y (hsub y hy) hxy⟩

theorem meet_normalize_left (a b : Lifetime) : o.meet (o.normalize a) b = o.meet a b := by
  have hnormal : ∀ x ∈ o.normalize a, x ∈ a := fun x hx =>
    (mem_mortal.mp ((mem_normalize_iff ho).mp hx).1).1
  refine normalize_eq_of_subset ho (fun x hx => ?_) fun x hx => ?_
  · obtain ⟨hx, hstatic⟩ := mem_mortal.mp hx
    refine mem_mortal.mpr ⟨?_, hstatic⟩
    exact ExtTreeSet.mem_union_iff.mpr ((ExtTreeSet.mem_union_iff.mp hx).imp_left (hnormal x))
  · obtain ⟨hmem, hleast⟩ := hx
    obtain ⟨hx, hstatic⟩ := mem_mortal.mp hmem
    refine ExtTreeSet.mem_union_iff.mpr ((ExtTreeSet.mem_union_iff.mp hx).imp_left fun hx => ?_)
    -- a member that binds the whole binds the part it is in
    refine (mem_normalize_iff ho).mpr
      ⟨mem_mortal.mpr ⟨hx, hstatic⟩, fun y hy hxy => hleast y ?_ hxy⟩
    obtain ⟨hy, hstatic'⟩ := mem_mortal.mp hy
    exact mem_mortal.mpr ⟨ExtTreeSet.mem_union_of_left hy, hstatic'⟩

theorem satisfies_trans (hab : o.satisfies a b = true) (hbc : o.satisfies b c = true) :
    o.satisfies a c = true := by
  rw [satisfies_iff ho] at hab hbc ⊢
  intro x hx
  obtain ⟨y, hy, hxy⟩ := hab x hx
  obtain ⟨z, hz, hyz⟩ := hbc y hy
  exact ⟨z, hz, outlives_trans ho (mem_mortal.mp hy).2 hxy hyz⟩

/-- Whatever depends on some of the names of both may stand for what is good while both are. -/
theorem satisfies_meet (hsub : ∀ x ∈ lt, x ∈ a.union b) : o.satisfies lt (o.meet a b) = true := by
  rw [satisfies_iff ho]
  intro x hx
  obtain ⟨hx, hstatic⟩ := mem_mortal.mp hx
  have hbounded := boundedBy_normalize ho (a.union b)
  obtain ⟨y, hy, hxy⟩ := hbounded.outlived x (mem_mortal.mpr ⟨hsub x hx, hstatic⟩)
  exact ⟨y, mem_mortal.mpr ⟨hy, (mem_mortal.mp (hbounded.subset y hy)).2⟩, hxy⟩

theorem meet_satisfies (hac : o.satisfies a c = true) (hbc : o.satisfies b c = true) :
    o.satisfies (o.meet a b) c = true := by
  rw [meet, satisfies_normalize ho]
  rw [satisfies_iff ho] at hac hbc ⊢
  intro x hx
  obtain ⟨hx, hstatic⟩ := mem_mortal.mp hx
  rcases ExtTreeSet.mem_union_iff.mp hx with hx | hx
  · exact hac x (mem_mortal.mpr ⟨hx, hstatic⟩)
  · exact hbc x (mem_mortal.mpr ⟨hx, hstatic⟩)

end Laws

theorem meet_comm (o : LifetimeOrder) (a b : Lifetime) : o.meet a b = o.meet b a := by
  have hunion : a.union b = b.union a := by
    apply ExtTreeSet.ext_mem
    intro x
    rw [ExtTreeSet.union_eq, ExtTreeSet.union_eq, ExtTreeSet.mem_union_iff,
      ExtTreeSet.mem_union_iff, or_comm]
  rw [meet, meet, hunion]

theorem meet_assoc (ho : o.Transitive) (a b c : Lifetime) :
    o.meet (o.meet a b) c = o.meet a (o.meet b c) := by
  have hunion : (a.union b).union c = a.union (b.union c) := by
    apply ExtTreeSet.ext_mem
    intro x
    simp only [ExtTreeSet.union_eq, ExtTreeSet.mem_union_iff, or_assoc]
  calc o.meet (o.meet a b) c
    _ = o.meet (a.union b) c := meet_normalize_left ho (a.union b) c
    _ = o.meet a (b.union c) := congrArg o.normalize hunion
    _ = o.meet (b.union c) a := meet_comm o a (b.union c)
    _ = o.meet (o.meet b c) a := (meet_normalize_left ho (b.union c) a).symm
    _ = o.meet a (o.meet b c) := meet_comm o (o.meet b c) a

/-- Lifetimes are ordered by what they may stand for, and the meet of two is their greatest lower
bound. -/
structure MeetsLifetimes (o : LifetimeOrder) : Prop where
  /-- The members may be looked at in any order. -/
  listed : ∀ (a : Lifetime) (members : List String),
    (∀ x, x ∈ members ↔ x ∈ a ∧ o.isStatic x = false) → o.normalizeAlong members = o.normalize a
  /-- What is left are the members that are not static and for which no such member lives strictly
  shorter. -/
  left : ∀ (a : Lifetime) (x : String), x ∈ o.normalize a ↔ x ∈ a ∧ o.isStatic x = false ∧
    ¬∃ y ∈ a, o.isStatic y = false ∧ o.outlives x y = true ∧ o.outlives y x = false
  refl : ∀ a : Lifetime, o.satisfies a a = true
  trans : ∀ a b c : Lifetime, o.satisfies a b = true → o.satisfies b c = true →
    o.satisfies a c = true
  below : ∀ a b : Lifetime, o.satisfies a (o.meet a b) = true ∧ o.satisfies b (o.meet a b) = true
  greatest : ∀ a b c : Lifetime, o.satisfies a c = true → o.satisfies b c = true →
    o.satisfies (o.meet a b) c = true
  comm : ∀ a b : Lifetime, o.meet a b = o.meet b a
  assoc : ∀ a b c : Lifetime, o.meet (o.meet a b) c = o.meet a (o.meet b c)
  normalized : ∀ a b : Lifetime, o.meet a b = o.meet (o.normalize a) b

/-- Whatever names, bounds and static names an order is made from, lifetimes have meets in it. -/
theorem ofBounds_meetsLifetimes (names : List String) (bounds : List (String × String))
    (staticLike : List String) : (ofBounds names bounds staticLike).MeetsLifetimes := by
  have ho := transitive_ofBounds names bounds staticLike
  constructor
  case listed => exact fun a members h => normalizeAlong_eq ho fun x => (h x).trans mem_mortal.symm
  case left =>
    intro a x
    rw [mem_normalize_iff ho, Binds, mem_mortal, and_assoc]
    simp only [mem_mortal, and_imp, not_exists, not_and, Bool.not_eq_false]
  case refl =>
    intro a
    rw [satisfies_iff ho]
    exact fun x hx => ⟨x, hx, outlives_iff.mpr (.inl rfl)⟩
  case trans => exact fun a b c => satisfies_trans ho
  case below =>
    intro a b
    exact ⟨satisfies_meet ho fun _ => ExtTreeSet.mem_union_of_left,
      satisfies_meet ho fun _ => ExtTreeSet.mem_union_of_right⟩
  case greatest => exact fun a b c => meet_satisfies ho
  case comm => exact meet_comm _
  case assoc => exact meet_assoc ho
  case normalized => exact fun a b => (meet_normalize_left ho a b).symm

end LifetimeOrder

end Ownership

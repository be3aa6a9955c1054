/-! # Registries

Tables of named entries, kept in the order in which their names first came.

An entry carries its own name. Putting an entry under a name that is taken replaces the old entry
and leaves it in its place, so the order of names never changes once they are in.
-/

namespace Ownership

class Named (α : Type) where
  name : α → String

structure Registry (α : Type) [Named α] where
  entries : List α
  distinct : (entries.map Named.name).Nodup

namespace Registry

variable {α : Type} [Named α]

instance [DecidableEq α] : DecidableEq (Registry α) := fun a b =>
  decidable_of_iff (a.entries = b.entries) (by cases a; cases b; simp)

instance [Repr α] : Repr (Registry α) := ⟨fun r n => reprPrec r.entries n⟩

def empty : Registry α := ⟨[], List.nodup_nil⟩

instance : EmptyCollection (Registry α) := ⟨empty⟩

instance : Inhabited (Registry α) := ⟨empty⟩

def names (r : Registry α) : List String := r.entries.map Named.name

def size (r : Registry α) : Nat := r.entries.length

def get? (r : Registry α) (n : String) : Option α := r.entries.find? (fun a => Named.name a == n)

def contains (r : Registry α) (n : String) : Bool := r.entries.any (fun a => Named.name a == n)

theorem contains_iff_mem_names {r : Registry α} {n : String} :
    r.contains n = true ↔ n ∈ r.names := by
  simp [contains, names]

theorem isSome_get? {r : Registry α} {n : String} : (r.get? n).isSome = r.contains n := by
  rw [Bool.eq_iff_iff, get?, contains, List.find?_isSome, List.any_eq_true]

theorem find?_name_eq_some {l : List α} (hl : (l.map Named.name).Nodup) {a : α} (ha : a ∈ l) :
    l.find? (fun b => Named.name b == Named.name a) = some a := by
  induction l with
  | nil => cases ha
  | cons b l ih =>
    obtain ⟨hb, hl⟩ := List.nodup_cons.mp hl
    rcases List.mem_cons.mp ha with rfl | ha
    · simp
    · have hne : Named.name b ≠ Named.name a := fun h => hb (h ▸ List.mem_map_of_mem ha)
      rw [List.find?_cons_of_neg (by simpa using hne)]
      exact ih hl ha

/-- An entry is found under its own name. -/
theorem get?_eq_some_of_mem {r : Registry α} {a : α} (ha : a ∈ r.entries) :
    r.get? (Named.name a) = some a :=
  find?_name_eq_some r.distinct ha

/-- Overwrites the entry of the same name where it stands. -/
def replaceIn (a : α) (l : List α) : List α :=
  l.map fun b => if Named.name b = Named.name a then a else b

theorem map_name_replaceIn (a : α) (l : List α) :
    (replaceIn a l).map Named.name = l.map Named.name := by
  rw [replaceIn, List.map_map]
  apply List.map_congr_left
  intro b _
  by_cases h : Named.name b = Named.name a <;> simp [h]

/-- Adds an entry at the end, or in the place of the entry that has its name. -/
def insert (r : Registry α) (a : α) : Registry α :=
  if h : r.contains (Named.name a) then
    ⟨replaceIn a r.entries, by rw [map_name_replaceIn]; exact r.distinct⟩
  else
    ⟨r.entries ++ [a], by
      have hn : Named.name a ∉ r.names := fun hm => h (contains_iff_mem_names.mpr hm)
      rw [List.map_append, List.nodup_append]
      refine ⟨r.distinct, by simp, ?_⟩
      intro x hx y hy
      rw [List.map_cons, List.map_nil, List.mem_singleton] at hy
      exact fun hxy => hn (hy ▸ hxy ▸ hx)⟩

theorem names_insert (r : Registry α) (a : α) :
    (r.insert a).names = if r.contains (Named.name a) then r.names
      else r.names ++ [Named.name a] := by
  unfold insert names
  split
  · simp [map_name_replaceIn]
  · simp

theorem contains_insert (r : Registry α) (a : α) (n : String) :
    (r.insert a).contains n = (r.contains n || Named.name a == n) := by
  rw [Bool.eq_iff_iff, contains_iff_mem_names, names_insert]
  split
  · rename_i h
    rw [contains_iff_mem_names] at h
    constructor
    · intro hn; simp [contains_iff_mem_names.mpr hn]
    · intro hn
      rcases Bool.or_eq_true_iff.mp hn with hn | hn
      · exact contains_iff_mem_names.mp hn
      · exact (beq_iff_eq.mp hn) ▸ h
  · rw [List.mem_append, List.mem_singleton, Bool.or_eq_true_iff,
      contains_iff_mem_names, beq_iff_eq, eq_comm]

theorem find?_replaceIn (a : α) (l : List α) (n : String) :
    (replaceIn a l).find? (fun b => Named.name b == n) =
      (l.find? fun b => Named.name b == n).map fun b =>
        if Named.name b = Named.name a then a else b := by
  rw [replaceIn, List.find?_map]
  congr 2
  funext b
  by_cases h : Named.name b = Named.name a <;> simp [h]

/-- A look-up after an insertion gives the new entry for its name, and the old answer for any
other. -/
theorem get?_insert (r : Registry α) (a : α) (n : String) :
    (r.insert a).get? n = if Named.name a = n then some a else r.get? n := by
  unfold insert get?
  split
  · rename_i h
    rw [find?_replaceIn]
    obtain ⟨b, hb, hn⟩ := List.any_eq_true.mp h
    by_cases ha : Named.name a = n
    · subst ha
      have hf : (r.entries.find? fun b => Named.name b == Named.name a).isSome :=
        List.find?_isSome.mpr ⟨b, hb, hn⟩
      obtain ⟨c, hc⟩ := Option.isSome_iff_exists.mp hf
      have hcn := List.find?_some hc
      simp [hc, beq_iff_eq.mp hcn]
    · rw [if_neg ha]
      cases hc : r.entries.find? (fun b => Named.name b == n) with
      | none => rfl
      | some c =>
        have hcn : Named.name c = n := by simpa using List.find?_some hc
        have hne : Named.name c ≠ Named.name a := fun h => ha (h.symm.trans hcn)
        simp [hne]
  · rename_i h
    rw [List.find?_append]
    by_cases ha : Named.name a = n
    · subst ha
      have hf : r.entries.find? (fun b => Named.name b == Named.name a) = none := by
        rw [List.find?_eq_none]
        exact fun b hb hn => h (List.any_eq_true.mpr ⟨b, hb, hn⟩)
      simp [hf]
    · simp [ha]

def ofList (l : List α) : Registry α := l.foldl insert empty

end Registry

end Ownership

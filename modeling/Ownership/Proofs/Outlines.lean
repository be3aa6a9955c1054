import Ownership.Proofs.TypeExtension

/-! # What a table shows while it is filled

The members of a struct or variant come later than its name. Without them the types of a table only
become more, and each keeps its number. A type is found by its name, or by all of it if it has none.
-/
namespace Ownership

namespace TypeDef

/-- A type without its members. -/
def outline : TypeDef → TypeDef
  | struct name _ _ => struct name [] false
  | variant name _ => variant name []
  | d => d

def key (d : TypeDef) : String ⊕ TypeDef := if d.isNamed then .inl d.name else .inr d

@[simp] theorem isNamed_outline (d : TypeDef) : d.outline.isNamed = d.isNamed := by cases d <;> rfl

@[simp] theorem name_outline (d : TypeDef) : d.outline.name = d.name := by cases d <;> rfl

@[simp] theorem kind_outline (d : TypeDef) : d.outline.kind = d.kind := by cases d <;> rfl

@[simp] theorem key_outline (d : TypeDef) : d.outline.key = d.key := by cases d <;> rfl

section Key
variable {d e : TypeDef}

theorem key_of_isNamed (h : d.isNamed = true) : d.key = .inl d.name := if_pos h

theorem key_eq (hd : d.isNamed = true) (he : e.isNamed = true) (hname : e.name = d.name) :
    e.key = d.key := by
  rw [key_of_isNamed hd, key_of_isNamed he, hname]

theorem name_of_key (hd : d.isNamed = true) (h : e.key = d.key) :
    e.isNamed = true ∧ e.name = d.name := by
  rw [key, key_of_isNamed hd] at h
  split at h
  next hnamed => exact ⟨hnamed, Sum.inl.inj h⟩
  next => cases h

theorem eq_of_key (hd : d.isNamed = false) (h : e.key = d.key) : e = d := by
  rw [key, key, hd] at h
  split at h
  · cases h
  · exact Sum.inr.inj h

theorem outline_of_unnamed (h : d.isNamed = false) : d.outline = d := by
  cases d with
  | array | ref => rfl
  | scalar | string | struct | variant | unknown => cases h

theorem outline_eq (hnamed : d.isNamed = true) (hkind : e.kind = d.kind)
    (hname : e.name = d.name) : e.outline = d.outline := by
  cases d <;> cases e <;> cases hkind
  case array.array | ref.ref => cases hnamed
  all_goals
    cases hname
    rfl

theorem outline_of_key (hkey : e.key = d.key) (hkind : e.kind = d.kind) :
    e.outline = d.outline := by
  cases hd : d.isNamed with
  | false => rw [eq_of_key hd hkey]
  | true => exact outline_eq hd hkind (name_of_key hd hkey).2

end Key

end TypeDef

namespace TypeTable
variable {t u : TypeTable} {id id' : TypeId} {d d' : TypeDef} {name : String} {k : TypeKind}

def outlines (t : TypeTable) : List TypeDef := t.defs.map TypeDef.outline

def Shows (t : TypeTable) (id : TypeId) (d : TypeDef) : Prop :=
  ∃ i : Nat, id = (i : Int) + 1 ∧ t.outlines[i]? = some d

def Grows (t u : TypeTable) : Prop := t.outlines <+: u.outlines

def Distinct (t : TypeTable) : Prop := (t.outlines.map TypeDef.key).Nodup

def HasKind (t : TypeTable) (name : String) (k : TypeKind) : Prop :=
  ∃ d ∈ t.outlines, d.isNamed = true ∧ d.name = name ∧ d.kind = k

theorem Grows.refl (t : TypeTable) : t.Grows t := List.prefix_refl _

theorem Grows.of_outlines (h : u.outlines = t.outlines) : t.Grows u :=
  ⟨[], (List.append_nil _).trans h.symm⟩

theorem Grows.trans {v : TypeTable} (h : t.Grows u) (h' : u.Grows v) : t.Grows v :=
  List.IsPrefix.trans h h'

theorem Shows.mono (hgrows : t.Grows u) (h : t.Shows id d) : u.Shows id d := by
  obtain ⟨i, rfl, hi⟩ := h
  obtain ⟨rest, hrest⟩ := hgrows
  have hlt := (List.getElem?_eq_some_iff.mp hi).1
  exact ⟨i, rfl, by rw [← hrest, List.getElem?_append_left hlt, hi]⟩

theorem Shows.defines (h : t.Shows id d) : t.Defines id := by
  obtain ⟨i, rfl, hi⟩ := h
  obtain ⟨e, he, -⟩ := Option.map_eq_some_iff.mp (List.getElem?_map.symm.trans hi)
  exact ⟨e, fetch_iff.mpr ⟨i, rfl, he⟩⟩

theorem Shows.eq (h : t.Shows id d) (h' : t.Shows id d') : d = d' := by
  obtain ⟨i, rfl, hi⟩ := h
  obtain ⟨j, hij, hj⟩ := h'
  obtain rfl : i = j := by
    have hsame : (i : Int) + 1 = (j : Int) + 1 := hij
    omega
  exact Option.some.inj (hi.symm.trans hj)

theorem exists_shows (h : d ∈ t.outlines) : ∃ id, t.Shows id d := by
  obtain ⟨i, hi⟩ := List.getElem?_of_mem h
  exact ⟨(i : Int) + 1, i, rfl, hi⟩

theorem get?_eq_some : t.get? id = some d ↔ t.fetch id = .ok d := by
  rw [fetch]
  cases t.get? id <;> simp

theorem shows_of_fetch (h : t.fetch id = .ok d) : t.Shows id d.outline := by
  obtain ⟨i, rfl, hi⟩ := fetch_iff.mp h
  exact ⟨i, rfl, by rw [outlines, List.getElem?_map, hi]; rfl⟩

theorem Grows.defines (hgrows : t.Grows u) (h : t.Defines id) : u.Defines id := by
  obtain ⟨d, hd⟩ := h
  exact ((shows_of_fetch hd).mono hgrows).defines

theorem Distinct.eq (ht : t.Distinct) (h : t.Shows id d) (h' : t.Shows id' d')
    (hkey : d.key = d'.key) : id = id' := by
  obtain ⟨i, rfl, hi⟩ := h
  obtain ⟨j, rfl, hj⟩ := h'
  have hlt := (List.getElem?_eq_some_iff.mp hi).1
  have hij : i = j := (List.getElem?_inj (by simpa using hlt) ht).mp (by simp [hi, hj, hkey])
  rw [hij]

theorem HasKind.unique (ht : t.Distinct) {k' : TypeKind} (h : t.HasKind name k)
    (h' : t.HasKind name k') : k = k' := by
  obtain ⟨d, hd, hnamed, rfl, rfl⟩ := h
  obtain ⟨d', hd', hnamed', hname, rfl⟩ := h'
  obtain ⟨id, hid⟩ := exists_shows hd
  obtain ⟨id', hid'⟩ := exists_shows hd'
  obtain rfl := ht.eq hid hid' (TypeDef.key_eq hnamed' hnamed hname.symm)
  rw [hid.eq hid']

theorem lookup?_eq_some (h : t.lookup? name = some id) :
    ∃ d, t.fetch id = .ok d ∧ d.isNamed = true ∧ d.name = name := by
  obtain ⟨i, hi, rfl⟩ := Option.map_eq_some_iff.mp h
  obtain ⟨hlt, htest, -⟩ := List.findIdx?_eq_some_iff_getElem.mp hi
  simp only [Bool.and_eq_true, beq_iff_eq] at htest
  exact ⟨t.defs[i], fetch_iff.mpr ⟨i, rfl, List.getElem?_eq_getElem hlt⟩, htest⟩

theorem lookup?_eq_none : t.lookup? name = none ↔ ∀ k, ¬t.HasKind name k := by
  rw [lookup?, find?, Option.map_eq_none_iff, List.findIdx?_eq_none_iff]
  constructor
  · rintro h k ⟨d, hd, hnamed, rfl, -⟩
    obtain ⟨e, he, rfl⟩ := List.mem_map.mp hd
    have htest := h e he
    simp_all
  · intro h d hd
    refine Bool.eq_false_iff.mpr fun htest => ?_
    simp only [Bool.and_eq_true, beq_iff_eq] at htest
    exact h d.kind ⟨d.outline, List.mem_map_of_mem hd, by simpa using htest.1,
      by simpa using htest.2, by simp⟩

theorem hasKind_of_fetch (h : t.fetch id = .ok d) (hnamed : d.isNamed = true) :
    t.HasKind d.name d.kind := by
  obtain ⟨i, -, hi⟩ := shows_of_fetch h
  exact ⟨d.outline, List.mem_of_getElem? hi, by simpa using hnamed, by simp, by simp⟩

theorem outlines_push (t : TypeTable) (d : TypeDef) :
    (t.push d).1.outlines = t.outlines ++ [d.outline] := by
  simp [outlines, push]

theorem grows_push (t : TypeTable) (d : TypeDef) : t.Grows (t.push d).1 := by
  rw [Grows, outlines_push]
  exact List.prefix_append ..

theorem shows_push (t : TypeTable) (d : TypeDef) : (t.push d).1.Shows (t.push d).2 d.outline :=
  shows_of_fetch (t.fetch_push d)

theorem Distinct.push (ht : t.Distinct) (h : ∀ e ∈ t.outlines, e.key ≠ d.key) :
    (t.push d).1.Distinct := by
  rw [Distinct, outlines_push, List.map_append, List.nodup_append]
  refine ⟨ht, by simp, ?_⟩
  rintro a ha b hb rfl
  obtain ⟨e, he, rfl⟩ := List.mem_map.mp ha
  rw [List.map_singleton, List.mem_singleton, TypeDef.key_outline] at hb
  exact h e he hb

theorem hasKind_push : (t.push d).1.HasKind name k ↔ t.HasKind name k ∨
    (d.isNamed = true ∧ d.name = name ∧ d.kind = k) := by
  simp only [HasKind, outlines_push, List.mem_append, List.mem_singleton]
  constructor
  · rintro ⟨e, he | rfl, h⟩
    · exact .inl ⟨e, he, h⟩
    · exact .inr (by simpa using h)
  · rintro (⟨e, he, h⟩ | h)
    · exact ⟨e, .inl he, h⟩
    · exact ⟨d.outline, .inr rfl, by simpa using h⟩

/-- A type that is not registered yet is not found by its key. -/
theorem key_ne_of_not_hasKind (hnamed : d.isNamed = true) (h : ∀ k, ¬t.HasKind d.name k) :
    ∀ e ∈ t.outlines, e.key ≠ d.key := by
  intro e he hkey
  obtain ⟨hnamed', hname⟩ := TypeDef.name_of_key hnamed hkey
  exact h e.kind ⟨e, he, hnamed', hname, rfl⟩

theorem key_ne_of_find? (hnamed : d.isNamed = false) (h : t.find? (· == d) = none) :
    ∀ e ∈ t.outlines, e.key ≠ d.key := by
  intro e he hkey
  obtain ⟨e, hmem, rfl⟩ := List.mem_map.mp he
  have hne : (e == d) = false := List.findIdx?_eq_none_iff.mp (Option.map_eq_none_iff.mp h) e hmem
  rw [TypeDef.key_outline] at hkey
  exact beq_eq_false_iff_ne.mp hne (TypeDef.eq_of_key hnamed hkey)

/-- Registering a type without a name gives its number. It becomes known unless it is already. -/
theorem intern_unnamed (hnamed : d.isNamed = false) (t : TypeTable) : t.Grows (t.intern d).1 ∧
    (t.intern d).1.Shows (t.intern d).2 d ∧ (t.Distinct → (t.intern d).1.Distinct) ∧
    ∀ name k, (t.intern d).1.HasKind name k ↔ t.HasKind name k := by
  have hshows := shows_of_fetch (t.intern_spec d).2
  rw [TypeDef.outline_of_unnamed hnamed] at hshows
  refine ⟨?_, hshows, ?_⟩ <;> rw [intern] <;> cases hfind : t.find? (· == d)
  · exact t.grows_push d
  · exact .refl t
  · refine ⟨fun ht => ht.push (key_ne_of_find? hnamed hfind), fun name k => ?_⟩
    rw [hasKind_push, hnamed]
    simp
  · exact ⟨id, fun _ _ => .rfl⟩

theorem defineStruct_eq {e : TypeDef} {fields : List (String × TypeId)} {finalizer : Bool}
    (hid : t.lookup? name = some id) (he : t.get? id = some e) (hkind : e.kind = .struct) :
    t.defineStruct name fields finalizer =
      .ok (t.redefine id (.struct name fields finalizer), id) := by
  have hdeclare : t.declareStruct name = .ok (t, id) := by
    cases e <;> cases hkind
    rw [declareStruct, hid]
    simp only [he]
  rw [defineStruct, hdeclare]
  rfl

theorem defineVariant_eq {e : TypeDef} {arms : List (String × List TypeId)}
    (hid : t.lookup? name = some id) (he : t.get? id = some e) (hkind : e.kind = .variant) :
    t.defineVariant name arms = .ok (t.redefine id (.variant name arms), id) := by
  have hdeclare : t.declareVariant name = .ok (t, id) := by
    rw [declareVariant, internNamed,
      show t.lookup? (TypeDef.variant name []).name = some id from hid]
    simp only [he]
    exact if_pos hkind
  rw [defineVariant, hdeclare]
  rfl

theorem outlines_redefine (h : t.Shows id d.outline) : (t.redefine id d).outlines = t.outlines := by
  obtain ⟨i, rfl, hi⟩ := h
  have hindex : ((i : Int) + 1 - 1).toNat = i := by omega
  have hset : (t.redefine ((i : Int) + 1) d).outlines = t.outlines.set i d.outline := by
    rw [outlines, redefine, List.map_set]
    exact congrArg (t.outlines.set · d.outline) hindex
  obtain ⟨hlt, hget⟩ := List.getElem?_eq_some_iff.mp hi
  rw [hset, ← hget, List.set_getElem_self]

end TypeTable
end Ownership

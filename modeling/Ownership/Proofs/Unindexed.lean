import Mathlib.Data.List.Sort
import Ownership.Proofs.Registration

/-! # Tables without indexes

A table that has only its types, and looks through them for the one that is asked for, gives the
answers of a table with indexes, and holds the same types after any requests. So what is shown of it
holds of the other.
-/
namespace Ownership
open Std

namespace TypeTable
variable {t : TypeTable} {id m : TypeId} {d e : TypeDef}

def register (t : TypeTable) : Registration → Except NameClash (TypeTable × TypeId)
  | .scalar name => t.scalar name
  | .int => t.int
  | .bool => t.bool
  | .string => t.string
  | .unknown => t.unknown
  | .ref inner exclusive lifetime => .ok (t.ref inner exclusive lifetime)
  | .array element => .ok (t.array element)
  | .declareStruct name => t.declareStruct name
  | .defineStruct name fields finalizer => t.defineStruct name fields finalizer
  | .declareVariant name => t.declareVariant name
  | .defineVariant name arms => t.defineVariant name arms

def perform (t : TypeTable) (r : Registration) : TypeTable × Except NameClash TypeId :=
  match t.register r with
  | .ok p => (p.1, .ok p.2)
  | .error clash => (t, .error clash)

def performAll (t : TypeTable) :
    List Registration → TypeTable × List (Registration × Except NameClash TypeId)
  | [] => (t, [])
  | r :: rs =>
    let rest := (t.perform r).1.performAll rs
    (rest.1, (r, (t.perform r).2) :: rest.2)

inductive Outcome (t : TypeTable) (d : TypeDef) (definition? : Option TypeDef)
    (refusal : TypeKind → NameClash) : Except NameClash (TypeTable × TypeId) → Prop
  | added (hnew : ∀ e ∈ t.outlines, e.key ≠ d.key) :
      Outcome t d definition? refusal (.ok (t.push (definition?.getD d)))
  | found {id : TypeId} {e : TypeDef} (he : t.fetch id = .ok e) (hkey : e.key = d.key)
      (hkind : e.kind = d.kind) :
    Outcome t d definition? refusal (.ok (definition?.elim t (t.redefine id), id))
  | refused {id : TypeId} {e : TypeDef} (he : t.fetch id = .ok e) (hkey : e.key = d.key)
      (hkind : e.kind ≠ d.kind) :
    Outcome t d definition? refusal (.error (refusal e.kind))

theorem outcome_intern (hd : d.isNamed = false) (refusal : TypeKind → NameClash) :
    t.Outcome d none refusal (.ok (t.intern d)) := by
  have hfound := (t.intern_spec d).2
  rw [intern] at hfound ⊢
  cases hfind : t.find? (· == d) with
  | none => exact .added (key_ne_of_find? hd hfind)
  | some id =>
    rw [hfind] at hfound
    exact .found hfound rfl rfl

theorem outcome_internNamed (hd : d.isNamed = true) :
    t.Outcome d none (.registered d.name) (t.internNamed d) := by
  rw [internNamed]
  cases hlookup : t.lookup? d.name with
  | none => exact .added (key_ne_of_not_hasKind hd (lookup?_eq_none.mp hlookup))
  | some id =>
    obtain ⟨e, he, hnamed, hname⟩ := lookup?_eq_some hlookup
    have hkey := TypeDef.key_eq hd hnamed hname
    simp only [get?_eq_some.mpr he]
    split
    next hkind => exact .found he hkey hkind
    next hkind => exact .refused he hkey hkind

theorem outcome_declareStruct (name : String) :
    t.Outcome (.struct name [] false) none (fun _ => .notStruct name) (t.declareStruct name) := by
  rw [declareStruct]
  cases hlookup : t.lookup? name with
  | none => exact .added (key_ne_of_not_hasKind rfl (lookup?_eq_none.mp hlookup))
  | some id =>
    obtain ⟨e, he, hnamed, rfl⟩ := lookup?_eq_some hlookup
    have hkey : e.key = (TypeDef.struct e.name [] false).key := TypeDef.key_of_isNamed hnamed
    simp only [get?_eq_some.mpr he]
    cases e with
    | struct name fields finalizer => exact .found he hkey rfl
    | scalar | string | variant | array | ref | unknown => exact .refused he hkey (by rintro ⟨⟩)

theorem redefine_push (t : TypeTable) (d e : TypeDef) :
    (t.push d).1.redefine (t.push d).2 e = (t.push e).1 := by
  have hindex : ((t.size : Int) + 1 - 1).toNat = t.defs.length := by
    rw [size]
    omega
  simp only [redefine, push, hindex]
  simp

/-- A type that is asked for may be defined at once. -/
theorem Outcome.define {refusal : TypeKind → NameClash} {o : Except NameClash (TypeTable × TypeId)}
    (h : t.Outcome d none refusal o) (e : TypeDef) :
    t.Outcome d (some e) refusal (o >>= fun p => .ok (p.1.redefine p.2 e, p.2)) := by
  cases h with
  | added hnew =>
    change t.Outcome d (some e) refusal (.ok ((t.push d).1.redefine (t.push d).2 e, (t.push d).2))
    rw [redefine_push]
    exact .added hnew
  | found he hkey hkind => exact .found he hkey hkind
  | refused he hkey hkind => exact .refused he hkey hkind

theorem outcome_register (t : TypeTable) (r : Registration) :
    t.Outcome r.type r.definition? r.refusal (t.register r) := by
  cases r with
  | scalar | int | bool | string | unknown | declareVariant => exact outcome_internNamed rfl
  | ref | array => exact outcome_intern rfl _
  | declareStruct name => exact outcome_declareStruct name
  | defineStruct name fields finalizer =>
    exact (outcome_declareStruct name).define (.struct name fields finalizer)
  | defineVariant name arms =>
    exact (outcome_internNamed (d := .variant name []) rfl).define (.variant name arms)

theorem key_ne_of_fetch (hnew : ∀ e ∈ t.outlines, e.key ≠ d.key) (he : t.fetch id = .ok e) :
    e.key ≠ d.key := by
  obtain ⟨i, -, hi⟩ := shows_of_fetch he
  have hne := hnew e.outline (List.mem_of_getElem? hi)
  rwa [TypeDef.key_outline] at hne

theorem get?_push_of_ne (d : TypeDef) (h : m ≠ (t.push d).2) : (t.push d).1.get? m = t.get? m := by
  cases hm : t.get? m with
  | some e => exact get?_eq_some.mpr (t.extends_push d m e (get?_eq_some.mp hm))
  | none =>
    refine Option.eq_none_iff_forall_ne_some.mpr fun e he => ?_
    rcases fetch_of_push (get?_eq_some.mp he) with hold | ⟨rfl, -⟩
    · cases hm.symm.trans (get?_eq_some.mpr hold)
    · exact h rfl

end TypeTable

namespace TypeIndex
variable {x : TypeIndex} {t : TypeTable} {id m : TypeId} {d e : TypeDef}

/-- The types and their numbers are those of a table without indexes. -/
structure Represents (x : TypeIndex) (t : TypeTable) : Prop where
  defs : ∀ id, x.defs[id]? = t.get? id
  next : x.next = (t.size : Int) + 1

theorem Represents.fetch_iff (h : x.Represents t) : x.defs[id]? = some e ↔ t.fetch id = .ok e := by
  rw [h.defs, TypeTable.get?_eq_some]

theorem represents_empty : Represents {} .empty where
  defs id := by
    rw [TypeTable.get?]
    split <;> simp [TypeTable.empty]
  next := rfl

theorem Represents.enter (h : x.Represents t) (d : TypeDef) :
    (x.enter d).Represents (t.push d).1 where
  defs id := by
    rw [defs_enter, ExtTreeMap.getElem?_insert, h.next]
    by_cases hid : (t.size : Int) + 1 = id
    · subst hid
      rw [if_pos (by simp)]
      exact (TypeTable.get?_eq_some.mpr (t.fetch_push d)).symm
    · rw [if_neg (by simpa using hid), h.defs, TypeTable.get?_push_of_ne d (Ne.symm hid)]
  next := by
    rw [next_enter, h.next]
    simp [TypeTable.push, TypeTable.size]

theorem Represents.define (h : x.Represents t) (he : t.fetch id = .ok e) (d : TypeDef) :
    (x.define id d).Represents (t.redefine id d) where
  defs m := by
    rw [TypeIndex.define, ExtTreeMap.getElem?_insert, TypeTable.get?_redefine ⟨e, he⟩, h.defs]
    simp only [Std.compare_eq_iff_eq, eq_comm (a := m)]
  next := by
    rw [TypeIndex.define, h.next]
    simp [TypeTable.redefine, TypeTable.size]

/-- A table in step has no two types that are found by the same. -/
theorem Represents.eq (hx : x.Consistent) (h : x.Represents t) (he : x.defs[id]? = some e)
    (hd : t.fetch m = .ok d) (hkey : e.key = d.key) : id = m ∧ e = d := by
  have hd' := h.fetch_iff.mpr hd
  obtain rfl := hx.eq he hd' hkey
  exact ⟨rfl, Option.some.inj (he.symm.trans hd')⟩

/-- The two tables answer alike, and are alike afterwards. -/
theorem Represents.perform (hx : x.Consistent) (h : x.Represents t) (r : Registration) :
    (x.perform r).1.Represents (t.perform r).1 ∧
    (x.perform r).2 = (t.perform r).2.mapError .clash := by
  have houtcome := outcome_register hx r
  have houtcome' := t.outcome_register r
  rw [TypeIndex.perform, TypeTable.perform]
  generalize (register r).run x = result at houtcome ⊢
  generalize t.register r = result' at houtcome' ⊢
  -- What is asked for is found by the same key in both, and only one type is found by a key.
  cases houtcome with
  | added hnew =>
    cases houtcome' with
    | added => exact ⟨h.enter _, congrArg Except.ok h.next⟩
    | found hd hkey' => exact absurd hkey' (hnew _ _ (h.fetch_iff.mpr hd))
    | refused hd hkey' => exact absurd hkey' (hnew _ _ (h.fetch_iff.mpr hd))
  | found he hkey hkind =>
    cases houtcome' with
    | added hnew => exact absurd hkey (TypeTable.key_ne_of_fetch hnew (h.fetch_iff.mp he))
    | found hd hkey' =>
      obtain ⟨rfl, rfl⟩ := h.eq hx he hd (hkey.trans hkey'.symm)
      refine ⟨?_, rfl⟩
      cases r.definition? with
      | none => exact h
      | some d => exact h.define hd d
    | refused hd hkey' hkind' =>
      obtain ⟨rfl, rfl⟩ := h.eq hx he hd (hkey.trans hkey'.symm)
      exact absurd hkind hkind'
  | refused he hkey hkind =>
    cases houtcome' with
    | added hnew => exact absurd hkey (TypeTable.key_ne_of_fetch hnew (h.fetch_iff.mp he))
    | found hd hkey' hkind' =>
      obtain ⟨rfl, rfl⟩ := h.eq hx he hd (hkey.trans hkey'.symm)
      exact absurd hkind' hkind
    | refused hd hkey' =>
      obtain ⟨rfl, rfl⟩ := h.eq hx he hd (hkey.trans hkey'.symm)
      exact ⟨h, rfl⟩

/-- A table without indexes gives the same answers to any requests, and holds the same types after
them. -/
theorem Represents.performAll (hx : x.Consistent) (h : x.Represents t) (rs : List Registration) :
    (x.performAll rs).1.Represents (t.performAll rs).1 ∧
      (x.performAll rs).2 = (t.performAll rs).2.map fun entry =>
        (entry.1, entry.2.mapError .clash) := by
  induction rs generalizing x t with
  | nil => exact ⟨h, rfl⟩
  | cons r rs ih =>
    obtain ⟨hnext, hanswer⟩ := h.perform hx r
    obtain ⟨hrest, hlog⟩ := ih (hx.perform r) hnext
    rw [TypeIndex.performAll, TypeTable.performAll, hanswer, hlog]
    exact ⟨hrest, rfl⟩

theorem Represents.table_eq (h : x.Represents t) : x.table = t := by
  have hlength : t.ids.length = t.defs.length := t.length_ids
  have hsorted : (t.ids.zip t.defs).Pairwise fun a b => a.1 < b.1 := by
    rw [← List.pairwise_map (f := Prod.fst) (R := fun a b : TypeId => a < b),
      List.map_fst_zip hlength.le, TypeTable.ids, List.pairwise_map]
    exact List.pairwise_lt_range.imp fun hlt => Int.add_lt_add_right (Int.ofNat_lt.mpr hlt) 1
  have hsorted' : x.defs.toList.Pairwise fun a b => a.1 < b.1 :=
    ExtTreeMap.ordered_keys_toList.imp compare_lt_iff_lt.mp
  have hmem : ∀ p, p ∈ x.defs.toList ↔ p ∈ t.ids.zip t.defs := by
    intro p
    rw [ExtTreeMap.mem_toList_iff_getElem?_eq_some, h.fetch_iff, TypeTable.fetch_iff,
      List.mem_iff_getElem?]
    refine exists_congr fun i => ?_
    rw [List.getElem?_zip_eq_some]
    refine and_congr_left fun hi => ?_
    have hlt : i < t.size := (List.getElem?_eq_some_iff.mp hi).1
    rw [TypeTable.ids, List.getElem?_map, List.getElem?_range hlt, Option.map_some,
      Option.some.injEq, eq_comm]
  have hirrefl : Std.Irrefl fun a b : TypeId × TypeDef => a.1 < b.1 := ⟨fun a => lt_irrefl a.1⟩
  have hantisymm : Std.Antisymm fun a b : TypeId × TypeDef => a.1 < b.1 :=
    ⟨fun a b hab hba => absurd (hab.trans hba) (lt_irrefl a.1)⟩
  rw [table, hsorted'.eq_of_mem_iff hsorted hmem, List.map_snd_zip hlength.ge]

/-- The types that are left when the indexes are dropped are those of a table that never had any. -/
theorem table_performAll (rs : List Registration) :
    (performAll {} rs).1.table = (TypeTable.empty.performAll rs).1 :=
  (represents_empty.performAll consistent_empty rs).1.table_eq

end TypeIndex

end Ownership

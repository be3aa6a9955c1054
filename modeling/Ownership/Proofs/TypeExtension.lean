import Ownership.Proofs.Types

/-! # Tables that grow

A table grows by types that are registered behind those it has. What it says of a type made of old
types stays the same: its definition, its class, and its spelling. The searches for the last two may
go deeper in the larger table, but they never need to.
-/
namespace Ownership
open Std

namespace TypeTable
variable {t t' u : TypeTable} {id : TypeId} {d : TypeDef}

def Extends (t t' : TypeTable) : Prop := ∀ id d, t.fetch id = .ok d → t'.fetch id = .ok d

theorem Extends.refl (t : TypeTable) : t.Extends t := fun _ _ h => h

theorem Extends.trans (h : t.Extends t') (h' : t'.Extends u) : t.Extends u := fun id d hd =>
    h' id d (h id d hd)

theorem Extends.defines (h : t.Extends t') (hid : t.Defines id) : t'.Defines id := by
  obtain ⟨d, hd⟩ := hid
  exact ⟨d, h id d hd⟩

theorem Extends.fetch (h : t.Extends t') (hid : t.Defines id) : t'.fetch id = t.fetch id := by
  obtain ⟨d, hd⟩ := hid
  rw [hd, h id d hd]

theorem Extends.size_le (h : t.Extends t') : t.size ≤ t'.size := by
  have hdistinct : t.ids.Nodup := List.Pairwise.map _ (fun i j hne hij => hne (by
    have hsame : (i : Int) + 1 = (j : Int) + 1 := hij
    omega)) List.nodup_range
  rw [← length_ids t]
  exact length_le_size hdistinct fun id hid => h.defines (defines_of_mem_ids hid)

theorem extends_push (t : TypeTable) (d : TypeDef) : t.Extends (t.push d).1 := by
  intro id e he
  obtain ⟨i, rfl, hi⟩ := fetch_iff.mp he
  have hlt := (List.getElem?_eq_some_iff.mp hi).1
  exact fetch_iff.mpr ⟨i, rfl, (List.getElem?_append_left hlt).trans hi⟩

theorem fetch_push (t : TypeTable) (d : TypeDef) : (t.push d).1.fetch (t.push d).2 = .ok d :=
  fetch_iff.mpr ⟨t.size, rfl, List.getElem?_concat_length⟩

/-- Registering a type leaves the others as they are, and the type is there afterwards. -/
theorem intern_spec (t : TypeTable) (d : TypeDef) :
    t.Extends (t.intern d).1 ∧ (t.intern d).1.fetch (t.intern d).2 = .ok d := by
  rw [intern]
  cases hfind : t.find? (· == d) with
  | none => exact ⟨t.extends_push d, t.fetch_push d⟩
  | some id =>
    obtain ⟨i, hi, rfl⟩ := Option.map_eq_some_iff.mp hfind
    obtain ⟨hlt, hsame, -⟩ := List.findIdx?_eq_some_iff_getElem.mp hi
    have hd : t.defs[i] = d := by simpa using hsame
    exact ⟨.refl t, fetch_iff.mpr ⟨i, rfl, by rw [List.getElem?_eq_getElem hlt, hd]⟩⟩

theorem fetch_of_push {e : TypeDef} (h : (t.push d).1.fetch id = .ok e) :
    t.fetch id = .ok e ∨ id = (t.push d).2 ∧ e = d := by
  obtain ⟨i, rfl, hi⟩ := fetch_iff.mp h
  have hlt : i < t.size + 1 := by simpa [push, size] using (List.getElem?_eq_some_iff.mp hi).1
  rw [push, List.getElem?_append] at hi
  split at hi
  next => exact .inl (fetch_iff.mpr ⟨i, rfl, hi⟩)
  next hold =>
    obtain rfl : i = t.size := Nat.le_antisymm (Nat.lt_succ_iff.mp hlt) (Nat.not_lt.mp hold)
    exact .inr ⟨rfl, List.mem_singleton.mp (List.mem_of_getElem? hi)⟩

theorem fetch_of_intern {e : TypeDef} (h : (t.intern d).1.fetch id = .ok e) :
    t.fetch id = .ok e ∨ e = d := by
  rw [intern] at h
  cases hfind : t.find? (· == d) with
  | none =>
    rw [hfind] at h
    exact (fetch_of_push h).imp_right And.right
  | some found =>
    rw [hfind] at h
    exact Or.inl h

section Spelling

/-- What a type nests, as far as its references and arrays go, is in the table. -/
def Nests (t : TypeTable) (id : TypeId) : Prop :=
  ∀ m, Relation.ReflTransGen t.Wraps id m → t.Defines m

theorem Nests.inner {inner : TypeId} (h : t.Nests id) (hwraps : t.Wraps id inner) : t.Nests inner :=
  fun m hm => h m (.head hwraps hm)

theorem nests_ref {inner : TypeId} {exclusive : Bool} {lifetime : Option String}
    (hid : t.fetch id = .ok (.ref inner exclusive lifetime)) (hinner : t.Nests inner) :
    t.Nests id := by
  intro m hm
  rcases hm.cases_head with rfl | ⟨b, hwraps, hm⟩
  · exact ⟨_, hid⟩
  · rcases hwraps with ⟨_, _, hb⟩ | hb
    · cases hid.symm.trans hb
      exact hinner m hm
    · cases hid.symm.trans hb

theorem Nests.extends (h : t.Extends t') (hid : t.Nests id) : t'.Nests id := by
  intro m hm
  have hold : Relation.ReflTransGen t.Wraps id m := by
    induction hm with
    | refl => exact .refl
    | tail _ hwraps ih =>
      rw [Wraps, h.fetch (hid _ ih)] at hwraps
      exact .tail ih hwraps
  exact h.defines (hid m hold)

theorem spell_extends (h : t.Extends t') (hid : t.Nests id) (n : Nat) :
    t'.spell n id = t.spell n id := by
  induction n generalizing id with
  | zero => rfl
  | succ n ih =>
    obtain ⟨d, hd⟩ := hid id .refl
    rw [spell, spell, hd, h id d hd]
    cases d with
    | ref inner exclusive lifetime =>
      have hinner := ih (hid.inner (Or.inl ⟨exclusive, lifetime, hd⟩))
      simp only [bind, Except.bind, hinner]
    | array element =>
      have hinner := ih (hid.inner (Or.inr hd))
      simp only [bind, Except.bind, hinner]
    | _ => rfl

theorem spell_succ {n : Nat} {text : String} (h : t.spell n id = .ok text) :
    t.spell (n + 1) id = .ok text := by
  induction n generalizing id text with
  | zero => cases h
  | succ n ih =>
    rw [spell] at h ⊢
    obtain ⟨d, hd, h⟩ := Except.bind_inv h
    rw [Except.bind_of_ok hd]
    cases d with
    | ref inner exclusive lifetime =>
      obtain ⟨rest, hrest, h⟩ := Except.bind_inv h
      exact (Except.bind_of_ok (ih hrest)).trans h
    | array element =>
      obtain ⟨rest, hrest, h⟩ := Except.bind_inv h
      exact (Except.bind_of_ok (ih hrest)).trans h
    | _ => exact h

theorem spell_mono {n m : Nat} (hnm : n ≤ m) {text : String} (h : t.spell n id = .ok text) :
    t.spell m id = .ok text := by
  induction hnm with
  | refl => exact h
  | step _ ih => exact spell_succ ih

theorem spell_of_inner_error {n : Nat} {inner : TypeId} {e : Fault} (hwraps : t.Wraps id inner)
    (h : t.spell n inner = .error e) : t.spell (n + 1) id = .error e := by
  rw [spell]
  rcases hwraps with ⟨exclusive, lifetime, hd⟩ | hd
  · rw [hd]
    simp only [bind, Except.bind, h]
  · rw [hd]
    simp only [bind, Except.bind, h]

/-- A type that nests itself has no spelling, however deep the search goes. -/
theorem spell_of_cycle (n : Nat) {m : TypeId} (hm : Relation.ReflTransGen t.Wraps id m)
    (hcycle : Relation.TransGen t.Wraps m m) : t.spell n id = .error .endless := by
  induction n generalizing id m with
  | zero => rfl
  | succ n ih =>
    cases hm using Relation.ReflTransGen.head_induction_on with
    | refl =>
      obtain ⟨inner, hwraps, hback⟩ := Relation.TransGen.head'_iff.mp hcycle
      exact spell_of_inner_error hwraps (ih .refl (.tail' hback hwraps))
    | head hwraps hrest => exact spell_of_inner_error hwraps (ih hrest hcycle)

/-- Searching deeper than there are types finds no other spelling. -/
theorem spell_of_size_lt (hid : t.Nests id) {n : Nat} (hn : t.size < n) :
    t.spell n id = t.display id := by
  by_cases hfounded : ∀ m, Relation.ReflTransGen t.Wraps id m → ¬Relation.TransGen t.Wraps m m
  · obtain ⟨text, htext⟩ := spell_total (t.size + 1) [] id (fun m hm => ⟨hid m hm, hfounded m hm⟩)
      .nil (by simp) (by simp) (by rw [List.length_nil]; omega)
    rw [display, htext, spell_mono hn htext]
  · obtain ⟨m, hm, hcycle⟩ : ∃ m, Relation.ReflTransGen t.Wraps id m ∧
        Relation.TransGen t.Wraps m m := by
      simpa using hfounded
    rw [display, spell_of_cycle n hm hcycle, spell_of_cycle _ hm hcycle]

theorem display_extends (h : t.Extends t') (hid : t.Nests id) : t'.display id = t.display id := by
  rw [display, spell_extends h hid]
  exact spell_of_size_lt hid (Nat.lt_succ_of_le h.size_le)

/-- A reference is spelled with the spelling of what it refers to. -/
theorem display_ref {inner : TypeId} {exclusive : Bool}
    (hid : t.fetch id = .ok (.ref inner exclusive none)) (hinner : t.Nests inner) :
    t.display id = (do return "&" ++ "" ++ (if exclusive then "mut " else "") ++
      (← t.display inner)) := by
  rw [← spell_of_size_lt (nests_ref hid hinner) (n := t.size + 1 + 1) (by omega), spell, hid]
  rfl

end Spelling

section Classes

/-- The members of a type, their members and so on are in the table. -/
def Holds (t : TypeTable) (id : TypeId) : Prop :=
  ∀ m, Relation.ReflTransGen t.Contains id m → t.Defines m

theorem classifyAll_congr {classify classify' : TypeId → Classify Copyability} {ms : List TypeId}
    (h : ∀ m ∈ ms, classify' m = classify m) :
    classifyAll classify' ms = classifyAll classify ms := by
  induction ms with
  | nil => rfl
  | cons m ms ih =>
    obtain ⟨hm, hms⟩ := List.forall_mem_cons.mp h
    simp only [classifyAll, hm, ih hms]

/-- Classes are found in the same way in a larger table, if each search may go deep enough for the
types of the first. -/
theorem classifyWithin_extends (h : t.Extends t') {n n' : Nat} {waiting : List TypeId}
    (hid : t.Holds id) (hwaiting : waiting.Nodup) (hdef : ∀ w ∈ waiting, t.Defines w)
    (hn : t.size < n + waiting.length) (hn' : t.size < n' + waiting.length) :
    t'.classifyWithin n' waiting id = t.classifyWithin n waiting id := by
  induction n generalizing n' waiting id with
  | zero =>
    have hlen := length_le_size hwaiting hdef
    omega
  | succ n ih =>
    cases n' with
    | zero =>
      have hlen := length_le_size hwaiting hdef
      omega
    | succ n' =>
      have hmember : id ∉ waiting → ∀ m, t.Contains id m →
          t'.classifyWithin n' (id :: waiting) m = t.classifyWithin n (id :: waiting) m := by
        intro hnew m hm
        refine ih (fun m' hm' => hid m' (.head hm hm')) (List.nodup_cons.mpr ⟨hnew, hwaiting⟩)
          (List.forall_mem_cons.mpr ⟨hid id .refl, hdef⟩) ?_ ?_
        · rw [List.length_cons]
          omega
        · rw [List.length_cons]
          omega
      rw [classifyWithin, classifyWithin]
      congr 1
      funext classes
      cases classes[id]? with
      | some c => rfl
      | none =>
        by_cases hnew : id ∈ waiting
        · simp only [hnew, ↓reduceIte]
        · obtain ⟨d, hd⟩ := hid id .refl
          simp only [hnew, ↓reduceIte, hd, h id d hd]
          cases d with
          | struct name fields finalizer =>
            have hall := classifyAll_congr fun m hm =>
              hmember hnew m (Or.inl ⟨name, fields, finalizer, hd, hm⟩)
            simp only [TypeDef.members, hall]
          | variant name arms =>
            have hall := classifyAll_congr fun m hm => hmember hnew m (Or.inr ⟨name, arms, hd, hm⟩)
            simp only [TypeDef.members, hall]
          | _ => rfl

theorem run_discard_of_ok {ε σ α : Type} {x : EStateM ε σ α} {a : α} {st st' : σ}
    (h : x.run st = .ok a st') : (discard x).run st = .ok () st' := by
  rw [EStateM.run] at h ⊢
  change EStateM.map _ x st = _
  rw [EStateM.map, h]

/-- If each type has its members in the table, all types can be classified. -/
theorem classifyEvery_total (h : ∀ id, t.Defines id → t.Holds id) :
    ∃ classes, t.classifyEvery.run ∅ = .ok () classes := by
  have hall : ∀ ids : List TypeId, (∀ id ∈ ids, t.Defines id) → ∀ classes : Classes,
      ∃ classes', (ids.forM fun id => discard (t.classifyMemo id)).run classes =
        .ok () classes' := by
    intro ids
    induction ids with
    | nil => exact fun _ classes => ⟨classes, rfl⟩
    | cons id ids ih =>
      intro hids classes
      obtain ⟨hid, hids⟩ := List.forall_mem_cons.mp hids
      obtain ⟨c, classes', hrun⟩ :=
        classifyWithin_total classes (t.size + 1) [] id (h id hid) .nil (by simp)
          (by rw [List.length_nil]; omega)
      obtain ⟨classes'', hrest⟩ := ih hids classes'
      exact ⟨classes'', (Access.run_bind_of_ok (run_discard_of_ok hrun)).trans hrest⟩
  exact hall t.ids (fun _ => defines_of_mem_ids) ∅

theorem isDuplicable_ref {inner : TypeId} {exclusive : Bool} {lifetime : Option String}
    (hid : t.fetch id = .ok (.ref inner exclusive lifetime)) :
    t.isDuplicable id = .ok (!exclusive) := by
  have hrun : (t.classifyMemo id).run ∅ = .ok (if exclusive then .owning else .duplicable)
      ((∅ : Classes).insert id (if exclusive then .owning else .duplicable)) := by
    simp only [classifyMemo, classifyWithin, EStateM.run_bind, EStateM.run_get,
      ExtTreeMap.getElem?_empty, List.not_mem_nil, ↓reduceIte, hid]
    rfl
  rw [isDuplicable, classify, hrun]
  cases exclusive <;> rfl

theorem isDuplicable_extends (h : t.Extends t') (hid : t.Holds id) :
    t'.isDuplicable id = t.isDuplicable id := by
  have hlen := h.size_le
  have hsame : t'.classifyMemo id = t.classifyMemo id :=
    classifyWithin_extends h hid .nil (by simp) (by simp) (by rw [List.length_nil]; omega)
  rw [isDuplicable, isDuplicable, classify, classify, hsame]

end Classes

end TypeTable

end Ownership

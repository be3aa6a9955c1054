import Mathlib.Logic.Relation
import Ownership.Proofs.Access

/-! # Types that can be classified and spelled

A type that is made of types of the table has a class; if its references and arrays do not nest
without end, it has a spelling. Both searches open one more type at each step and never the same one
twice, so the number of types bounds them.
-/
namespace Ownership
open Std

namespace TypeTable
variable {t : TypeTable}

def Defines (t : TypeTable) (id : TypeId) : Prop := ∃ d, t.fetch id = .ok d

def Wraps (t : TypeTable) (id inner : TypeId) : Prop :=
  (∃ exclusive lifetime, t.fetch id = .ok (.ref inner exclusive lifetime)) ∨
    t.fetch id = .ok (.array inner)

def Contains (t : TypeTable) (id m : TypeId) : Prop :=
  (∃ name fields finalizer, t.fetch id = .ok (.struct name fields finalizer) ∧
    m ∈ fields.map Prod.snd) ∨
  ∃ name arms, t.fetch id = .ok (.variant name arms) ∧ m ∈ arms.flatMap Prod.snd

/-- The type is in the table, with what its references and arrays nest, which ends somewhere, and
with the members of its structs and variants. -/
structure Grounded (t : TypeTable) (id : TypeId) : Prop where
  nested : ∀ m, Relation.ReflTransGen t.Wraps id m → t.Defines m
  founded : ∀ m, Relation.ReflTransGen t.Wraps id m → ¬Relation.TransGen t.Wraps m m
  members : ∀ m, Relation.ReflTransGen t.Contains id m → t.Defines m

theorem Grounded.defines {id : TypeId} (h : t.Grounded id) : t.Defines id := h.nested id .refl

structure Closed (t : TypeTable) : Prop where
  members : ∀ id d, t.fetch id = .ok d → ∀ m ∈ d.members, t.Defines m
  founded : ∀ id, ¬Relation.TransGen t.Wraps id id

theorem Closed.defines_of_wraps (ht : t.Closed) {id m : TypeId} (h : t.Wraps id m) :
    t.Defines m := by
  rcases h with ⟨_, _, h⟩ | h
  · exact ht.members id _ h m (by simp [TypeDef.members])
  · exact ht.members id _ h m (by simp [TypeDef.members])

theorem Closed.defines_of_contains (ht : t.Closed) {id m : TypeId} (h : t.Contains id m) :
    t.Defines m := by
  rcases h with ⟨_, _, _, h, hm⟩ | ⟨_, _, h, hm⟩
  · exact ht.members id _ h m hm
  · exact ht.members id _ h m hm

/-- In a closed table every type is there with all it is made of. -/
theorem Closed.grounded (ht : t.Closed) {id : TypeId} (hid : t.Defines id) : t.Grounded id where
  nested m h := by
    cases h with
    | refl => exact hid
    | tail _ h => exact ht.defines_of_wraps h
  founded m _ := ht.founded m
  members m h := by
    cases h with
    | refl => exact hid
    | tail _ h => exact ht.defines_of_contains h

theorem get?_succ (t : TypeTable) (i : Nat) : t.get? ((i : Int) + 1) = t.defs[i]? := by
  have hpos : (1 : Int) ≤ (i : Int) + 1 := by omega
  have hindex : ((i : Int) + 1 - 1).toNat = i := by omega
  exact (if_pos hpos).trans (congrArg (t.defs[·]?) hindex)

/-- The types are numbered from one upward. -/
theorem fetch_iff {id : TypeId} {d : TypeDef} : t.fetch id = .ok d ↔ ∃ i : Nat, id = (i : Int) + 1 ∧
    t.defs[i]? = some d := by
  have hget : t.fetch id = .ok d ↔ t.get? id = some d := by
    rw [TypeTable.fetch]
    cases t.get? id <;> simp
  rw [hget]
  constructor
  · intro h
    have hpos : (1 : Int) ≤ id := Decidable.byContradiction fun hneg => by
      rw [get?, if_neg hneg] at h
      cases h
    obtain ⟨i, rfl⟩ : ∃ i : Nat, id = (i : Int) + 1 := by
      refine ⟨(id - 1).toNat, ?_⟩
      rw [Int.toNat_of_nonneg (Int.sub_nonneg_of_le hpos)]
      exact (Int.sub_add_cancel id 1).symm
    exact ⟨i, rfl, (t.get?_succ i).symm.trans h⟩
  · rintro ⟨i, rfl, h⟩
    exact (t.get?_succ i).trans h

theorem defines_of_mem_ids {id : TypeId} (h : id ∈ t.ids) : t.Defines id := by
  obtain ⟨i, hi, rfl⟩ := List.mem_map.mp h
  exact ⟨_, fetch_iff.mpr ⟨i, rfl, List.getElem?_eq_getElem (List.mem_range.mp hi)⟩⟩

theorem mem_ids_of_defines {id : TypeId} (h : t.Defines id) : id ∈ t.ids := by
  obtain ⟨d, h⟩ := h
  obtain ⟨i, rfl, hi⟩ := fetch_iff.mp h
  exact List.mem_map.mpr ⟨i, List.mem_range.mpr (List.getElem?_eq_some_iff.mp hi).1, rfl⟩

theorem length_ids (t : TypeTable) : t.ids.length = t.size := by simp [ids]

/-- Distinct types of the table are no more than there are types. -/
theorem length_le_size {l : List TypeId} (hl : l.Nodup) (hdef : ∀ id ∈ l, t.Defines id) :
    l.length ≤ t.size := by
  rw [← length_ids]
  exact hl.length_le_of_subset fun id hid => mem_ids_of_defines (hdef id hid)

theorem classifyAll_total (classes : Classes) {classify : TypeId → Classify Copyability}
    (ms : List TypeId) (h : ∀ m ∈ ms, ∀ st, ∃ c st', (classify m).run st = .ok c st') :
    ∃ c st', (classifyAll classify ms).run classes = .ok c st' := by
  induction ms generalizing classes with
  | nil => exact ⟨_, _, rfl⟩
  | cons m ms ih =>
    obtain ⟨hm, hms⟩ := List.forall_mem_cons.mp h
    obtain ⟨c, st, hrun⟩ := hm classes
    cases c with
    | owning => exact ⟨.owning, st, Access.run_bind_of_ok hrun⟩
    | duplicable =>
      have hstep : (classifyAll classify (m :: ms)).run classes =
          (classifyAll classify ms).run st :=
        Access.run_bind_of_ok hrun
      rw [hstep]
      exact ih st hms

/-- Each type that waits is another one, so the bound is never used up. -/
theorem classifyWithin_total (classes : Classes) (n : Nat) (waiting : List TypeId) (id : TypeId)
    (hid : ∀ m, Relation.ReflTransGen t.Contains id m → t.Defines m) (hwaiting : waiting.Nodup)
    (hdef : ∀ w ∈ waiting, t.Defines w) (hn : t.size < n + waiting.length) :
    ∃ c st, (t.classifyWithin n waiting id).run classes = .ok c st := by
  induction n generalizing waiting id classes with
  | zero =>
    have hlen := length_le_size hwaiting hdef
    omega
  | succ n ih =>
    unfold classifyWithin
    simp only [EStateM.run_bind, EStateM.run_get]
    split
    · exact ⟨_, _, rfl⟩
    · by_cases hmem : id ∈ waiting
      · simp only [hmem, ↓reduceIte]
        exact ⟨_, _, rfl⟩
      · have hmember : ∀ m, t.Contains id m → ∀ st, ∃ c st',
            (t.classifyWithin n (id :: waiting) m).run st = .ok c st' := by
          intro m hm st
          refine ih st (id :: waiting) m (fun m' h => hid m' (.head hm h))
            (List.nodup_cons.mpr ⟨hmem, hwaiting⟩) ?_ ?_
          · exact List.forall_mem_cons.mpr ⟨hid id .refl, hdef⟩
          · rw [List.length_cons]
            omega
        obtain ⟨d, hd⟩ := hid id .refl
        simp only [hmem, ↓reduceIte, hd]
        cases d with
        | struct name fields finalizer =>
          cases finalizer with
          | true => exact ⟨_, _, rfl⟩
          | false =>
            obtain ⟨c, st, hall⟩ := classifyAll_total classes (fields.map Prod.snd)
              fun m hm => hmember m (Or.inl ⟨_, _, _, hd, hm⟩)
            exact ⟨c, st.insert id c, Access.run_bind_of_ok hall⟩
        | variant name arms =>
          obtain ⟨c, st, hall⟩ := classifyAll_total classes (arms.flatMap Prod.snd)
            fun m hm => hmember m (Or.inr ⟨_, _, hd, hm⟩)
          exact ⟨c, st.insert id c, Access.run_bind_of_ok hall⟩
        | _ => exact ⟨_, _, rfl⟩

/-- A type has a class if its members are there. -/
theorem isDuplicable_total {id : TypeId} (hid : t.Grounded id) :
    ∃ dup, t.isDuplicable id = .ok dup := by
  obtain ⟨c, st, hrun⟩ := classifyWithin_total ∅ (t.size + 1) [] id hid.members .nil (by simp)
    (by rw [List.length_nil]; omega)
  refine ⟨c == .duplicable, ?_⟩
  simp only [isDuplicable, classify, classifyMemo, hrun]
  rfl

/-- The types opened on the way are distinct, since none is inside itself. -/
theorem spell_total (n : Nat) (opened : List TypeId) (id : TypeId)
    (hid : ∀ m, Relation.ReflTransGen t.Wraps id m → t.Defines m ∧ ¬Relation.TransGen t.Wraps m m)
    (hopened : opened.Nodup) (hdef : ∀ o ∈ opened, t.Defines o)
    (hin : ∀ o ∈ opened, Relation.TransGen t.Wraps o id)
    (hn : t.size < n + opened.length) : ∃ text, t.spell n id = .ok text := by
  induction n generalizing opened id with
  | zero =>
    have hlen := length_le_size hopened hdef
    omega
  | succ n ih =>
    obtain ⟨⟨d, hd⟩, hfounded⟩ := hid id .refl
    have hfresh : id ∉ opened := fun hmem => hfounded (hin id hmem)
    have hinner : ∀ inner, t.Wraps id inner → ∃ text, t.spell n inner = .ok text := by
      intro inner hwraps
      refine ih (id :: opened) inner (fun m h => hid m (.head hwraps h))
        (List.nodup_cons.mpr ⟨hfresh, hopened⟩) ?_ ?_ ?_
      · exact List.forall_mem_cons.mpr ⟨⟨d, hd⟩, hdef⟩
      · exact List.forall_mem_cons.mpr ⟨.single hwraps, fun o ho => (hin o ho).tail hwraps⟩
      · rw [List.length_cons]
        omega
    cases d with
    | ref inner exclusive lifetime =>
      obtain ⟨text, htext⟩ := hinner inner (Or.inl ⟨_, _, hd⟩)
      simp [spell, hd, htext, bind, Except.bind, pure, Except.pure]
    | array element =>
      obtain ⟨text, htext⟩ := hinner element (Or.inr hd)
      simp [spell, hd, htext, bind, Except.bind, pure, Except.pure]
    | _ => simp [spell, hd, bind, Except.bind, pure, Except.pure]

/-- A type has a spelling if what it nests is there and ends. -/
theorem display_total {id : TypeId} (hid : t.Grounded id) : ∃ text, t.display id = .ok text :=
  spell_total (t.size + 1) [] id (fun m h => ⟨hid.nested m h, hid.founded m h⟩) .nil
    (by simp) (by simp) (by rw [List.length_nil]; omega)

end TypeTable

end Ownership

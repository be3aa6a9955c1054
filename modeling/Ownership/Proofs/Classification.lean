import Mathlib.Data.List.Forall2
import Ownership.Proofs.TypeExtension

/-! # What the classes say

A type is duplicable if it is so from the ground up: a scalar, a shared reference, or a struct or
variant without a finalizer that is made of duplicable types. A type that contains itself is not,
since it is never reached from the ground.

The search for a class answers for a type that waits before it knows the class. That answer is
right: a type that comes up while it waits contains itself. So each class that is remembered on the
way is right for good, and it does not matter which types are asked for first.
-/
namespace Ownership
open Std

def TypeDef.IsComposed (d : TypeDef) : Prop :=
  (d.kind = .struct ∨ d.kind = .variant) ∧ d.hasFinalizer = false

namespace TypeTable
variable {t : TypeTable} {id m : TypeId} {d : TypeDef} {classes classes' classes'' : Classes}
    {c : Copyability}

inductive Duplicable (t : TypeTable) : TypeId → Prop
  | scalar {id : TypeId} {name : String} (hd : t.fetch id = .ok (.scalar name)) : t.Duplicable id
  | shared {id inner : TypeId} {lifetime : Option String}
      (hd : t.fetch id = .ok (.ref inner false lifetime)) :
    t.Duplicable id
  | composed {id : TypeId} {d : TypeDef} (hd : t.fetch id = .ok d) (hparts : d.IsComposed)
    (hmembers : ∀ m ∈ d.members, t.Duplicable m) : t.Duplicable id

theorem duplicable_iff (hd : t.fetch id = .ok d) : t.Duplicable id ↔ (∃ name, d = .scalar name) ∨
    (∃ inner lifetime, d = .ref inner false lifetime) ∨
    (d.IsComposed ∧ ∀ m ∈ d.members, t.Duplicable m) := by
  constructor
  · intro h
    cases h with
    | scalar hd' =>
      cases hd.symm.trans hd'
      exact Or.inl ⟨_, rfl⟩
    | shared hd' =>
      cases hd.symm.trans hd'
      exact Or.inr (Or.inl ⟨_, _, rfl⟩)
    | composed hd' hparts hmembers =>
      cases hd.symm.trans hd'
      exact Or.inr (Or.inr ⟨hparts, hmembers⟩)
  · rintro (⟨name, rfl⟩ | ⟨inner, lifetime, rfl⟩ | ⟨hparts, hmembers⟩)
    · exact .scalar hd
    · exact .shared hd
    · exact .composed hd hparts hmembers

/-- A type that is not composed is duplicable for what it is, not for what it is made of. -/
theorem duplicable_iff_of_simple (hd : t.fetch id = .ok d) (hsimple : ¬d.IsComposed) :
    t.Duplicable id ↔ (∃ name, d = .scalar name) ∨
      ∃ inner lifetime, d = .ref inner false lifetime := by
  simp only [duplicable_iff hd, hsimple, false_and, or_false]

theorem contains_iff : t.Contains id m ↔
    ∃ d, t.fetch id = .ok d ∧ (d.kind = .struct ∨ d.kind = .variant) ∧ m ∈ d.members := by
  constructor
  · rintro (⟨name, fields, finalizer, hd, hm⟩ | ⟨name, arms, hd, hm⟩)
    · exact ⟨_, hd, .inl rfl, hm⟩
    · exact ⟨_, hd, .inr rfl, hm⟩
  · rintro ⟨d, hd, hkind, hm⟩
    cases d with
    | struct name fields finalizer => exact .inl ⟨name, fields, finalizer, hd, hm⟩
    | variant name arms => exact .inr ⟨name, arms, hd, hm⟩
    | scalar | string | array | ref | unknown => simp [TypeDef.kind] at hkind

/-- A duplicable type is made of duplicable types. -/
theorem Duplicable.of_contains (h : t.Duplicable id) (hm : t.Contains id m) : t.Duplicable m := by
  obtain ⟨d, hd, hkind, hm⟩ := contains_iff.mp hm
  cases h with
  | scalar hd' =>
    cases hd.symm.trans hd'
    simp [TypeDef.kind] at hkind
  | shared hd' =>
    cases hd.symm.trans hd'
    simp [TypeDef.kind] at hkind
  | composed hd' _ hmembers =>
    cases hd.symm.trans hd'
    exact hmembers m hm

/-- A type that contains itself is not duplicable. -/
theorem Duplicable.not_cyclic (h : t.Duplicable id) : ¬Relation.TransGen t.Contains id id := by
  have hnext : ∀ {id : TypeId}, (∀ m, t.Contains id m → ¬Relation.TransGen t.Contains m m) →
      ¬Relation.TransGen t.Contains id id := by
    intro id hall hcycle
    obtain ⟨m, hm, hback⟩ := Relation.TransGen.head'_iff.mp hcycle
    exact hall m hm (.tail' hback hm)
  -- the cycle may be entered at any of its types, so it would go through a member as well
  induction h with
  | scalar hd | shared hd =>
    refine hnext fun m hm => ?_
    obtain ⟨d, hd', hkind, -⟩ := contains_iff.mp hm
    cases hd.symm.trans hd'
    simp [TypeDef.kind] at hkind
  | composed hd hparts hmembers ih =>
    refine hnext fun m hm => ?_
    obtain ⟨d, hd', -, hm⟩ := contains_iff.mp hm
    cases hd.symm.trans hd'
    exact ih m hm

def Fits (t : TypeTable) (id : TypeId) (c : Copyability) : Prop := c = .duplicable ↔ t.Duplicable id

@[simp] theorem fits_duplicable : t.Fits id .duplicable ↔ t.Duplicable id := by simp [Fits]

@[simp] theorem fits_owning : t.Fits id .owning ↔ ¬t.Duplicable id := by simp [Fits]

structure Remembers (t : TypeTable) (classes : Classes) : Prop where
  defined : ∀ id c, classes[id]? = some c → t.Defines id
  fits : ∀ id c, classes[id]? = some c → t.Fits id c

theorem remembers_empty (t : TypeTable) : t.Remembers ∅ := ⟨by simp, by simp⟩

theorem Remembers.insert (h : t.Remembers classes) (hid : t.Defines id) (hc : t.Fits id c) :
    t.Remembers (classes.insert id c) := by
  have hentry : ∀ id' c', (classes.insert id c)[id']? = some c' → (id' = id ∧ c' = c) ∨
      classes[id']? = some c' := by
    intro id' c' h'
    rw [ExtTreeMap.getElem?_insert] at h'
    split at h'
    · rename_i heq
      exact Or.inl ⟨(LawfulEqCmp.eq_of_compare heq).symm, (Option.some.inj h').symm⟩
    · exact Or.inr h'
  refine ⟨fun id' c' h' => ?_, fun id' c' h' => ?_⟩
  · rcases hentry id' c' h' with ⟨rfl, -⟩ | h'
    · exact hid
    · exact h.defined id' c' h'
  · rcases hentry id' c' h' with ⟨rfl, rfl⟩ | h'
    · exact hc
    · exact h.fits id' c' h'

structure Learns (t : TypeTable) (classes classes' : Classes) : Prop where
  remembers : t.Remembers classes'
  keeps : ∀ (id : TypeId) (c : Copyability), classes[id]? = some c → classes'[id]? = some c

theorem Remembers.learns (h : t.Remembers classes) : t.Learns classes classes := ⟨h, fun _ _ h => h⟩

theorem Learns.trans (h : t.Learns classes classes') (h' : t.Learns classes' classes'') :
    t.Learns classes classes'' :=
  ⟨h'.remembers, fun id c hc => h'.keeps id c (h.keeps id c hc)⟩

/-- A class that was not known is added. -/
theorem Learns.insert (h : t.Learns classes classes') (hnew : classes[id]? = none)
    (hid : t.Defines id) (hc : t.Fits id c) : t.Learns classes (classes'.insert id c) := by
  refine ⟨h.remembers.insert hid hc, fun id' c' hold => ?_⟩
  have hne : id ≠ id' := by
    rintro rfl
    cases hnew.symm.trans hold
  rw [ExtTreeMap.getElem?_insert, if_neg fun heq => hne (LawfulEqCmp.eq_of_compare heq)]
  exact h.keeps id' c' hold

/-- Members up to the first owning one decide whether all are duplicable. -/
theorem classifyAll_fits {classify : TypeId → Classify Copyability} {ms : List TypeId}
    (hmember : ∀ m ∈ ms, ∀ classes c classes', t.Remembers classes →
      (classify m).run classes = .ok c classes' → t.Fits m c ∧ t.Learns classes classes')
    (h : t.Remembers classes) (hrun : (classifyAll classify ms).run classes = .ok c classes') :
    (c = .duplicable ↔ ∀ m ∈ ms, t.Duplicable m) ∧ t.Learns classes classes' := by
  induction ms generalizing classes with
  | nil =>
    cases hrun
    exact ⟨by simp, h.learns⟩
  | cons m ms ih =>
    obtain ⟨hm, hms⟩ := List.forall_mem_cons.mp hmember
    rw [classifyAll, EStateM.run_bind] at hrun
    cases hfirst : (classify m).run classes with
    | error e st =>
      rw [hfirst] at hrun
      cases hrun
    | ok c₁ classes₁ =>
      obtain ⟨hfits, hlearns⟩ := hm classes c₁ classes₁ h hfirst
      rw [hfirst] at hrun
      cases c₁ with
      | owning =>
        cases hrun
        have hsome : ¬∀ m' ∈ m :: ms, t.Duplicable m' := fun hall =>
          fits_owning.mp hfits (hall m List.mem_cons_self)
        exact ⟨by simp only [hsome, reduceCtorEq], hlearns⟩
      | duplicable =>
        obtain ⟨hrest, hlearns'⟩ := ih hms hlearns.remembers hrun
        rw [hrest, List.forall_mem_cons]
        exact ⟨(and_iff_right (fits_duplicable.mp hfits)).symm, hlearns.trans hlearns'⟩

/-- A class that is found is remembered. -/
theorem remember_inv {x : Classify Copyability}
    (hrun : (do let c ← x; modify (·.insert id c); return c : Classify Copyability).run classes =
      .ok c classes') :
    ∃ found, x.run classes = .ok c found ∧ classes' = found.insert id c := by
  rw [EStateM.run_bind] at hrun
  cases hx : x.run classes with
  | error e found =>
    rw [hx] at hrun
    cases hrun
  | ok c' found =>
    rw [hx] at hrun
    cases hrun
    exact ⟨found, rfl, rfl⟩

/-- One step of the search: the class is known, or the type waits, or it is opened or not and its
class is remembered. -/
theorem classifyWithin_inv {n : Nat} {waiting : List TypeId}
    (hrun : (t.classifyWithin (n + 1) waiting id).run classes = .ok c classes') :
    (classes[id]? = some c ∧ classes' = classes) ∨
    (id ∈ waiting ∧ c = .owning ∧ classes' = classes) ∨
    (classes[id]? = none ∧ id ∉ waiting ∧ ∃ d found, t.fetch id = .ok d ∧
      classes' = found.insert id c ∧
      ((d.IsComposed ∧ (classifyAll (t.classifyWithin n (id :: waiting)) d.members).run classes =
        .ok c found) ∨ (¬d.IsComposed ∧ found = classes ∧
          (c = .duplicable ↔ (∃ name, d = .scalar name) ∨
            ∃ inner lifetime, d = .ref inner false lifetime)))) := by
  rw [classifyWithin, EStateM.run_bind, EStateM.run_get] at hrun
  dsimp only at hrun
  split at hrun
  · rename_i c' hknown
    cases hrun
    exact Or.inl ⟨hknown, rfl⟩
  rename_i hnew
  by_cases hmem : id ∈ waiting
  · simp only [hmem, ↓reduceIte] at hrun
    cases hrun
    exact Or.inr (Or.inl ⟨hmem, rfl, rfl⟩)
  simp only [hmem, ↓reduceIte] at hrun
  split at hrun
  · cases hrun
  rename_i d hd
  refine Or.inr (Or.inr ⟨hnew, hmem, d, ?_⟩)
  cases d with
  | struct name fields finalizer =>
    cases finalizer with
    | true =>
      cases hrun
      exact ⟨classes, hd, rfl,
        Or.inr ⟨by simp [TypeDef.IsComposed, TypeDef.hasFinalizer], rfl, by simp⟩⟩
    | false =>
      obtain ⟨found, hall, rfl⟩ := remember_inv hrun
      exact ⟨found, hd, rfl, Or.inl ⟨⟨.inl rfl, rfl⟩, hall⟩⟩
  | variant name arms =>
    obtain ⟨found, hall, rfl⟩ := remember_inv hrun
    exact ⟨found, hd, rfl, Or.inl ⟨⟨.inr rfl, rfl⟩, hall⟩⟩
  | ref inner exclusive lifetime =>
    cases hrun
    exact ⟨classes, hd, rfl,
      Or.inr ⟨by simp [TypeDef.IsComposed, TypeDef.kind], rfl, by cases exclusive <;> simp⟩⟩
  | scalar | string | array | unknown =>
    cases hrun
    exact ⟨classes, hd, rfl, Or.inr ⟨by simp [TypeDef.IsComposed, TypeDef.kind], rfl, by simp⟩⟩

/-- The class that the search gives is right, and so is all it remembers on the way, if the types
that wait contain the one that is asked for. -/
theorem classifyWithin_fits {n : Nat} {waiting : List TypeId} (h : t.Remembers classes)
    (hwaiting : ∀ w ∈ waiting, Relation.TransGen t.Contains w id)
    (hrun : (t.classifyWithin n waiting id).run classes = .ok c classes') :
    t.Fits id c ∧ t.Learns classes classes' ∧ (id ∉ waiting → classes'[id]? = some c) := by
  induction n generalizing waiting id classes c classes' with
  | zero => cases hrun
  | succ n ih =>
    rcases classifyWithin_inv hrun
      with ⟨hknown, rfl⟩ | ⟨hmem, rfl, rfl⟩ | ⟨hnew, hmem, d, found, hd, rfl, hfound⟩
    · exact ⟨h.fits id c hknown, h.learns, fun _ => hknown⟩
    · -- a type that waits for itself contains itself
      exact ⟨fits_owning.mpr fun hdup => hdup.not_cyclic (hwaiting id hmem), h.learns,
        fun hn => absurd hmem hn⟩
    have hclass : t.Fits id c ∧ t.Learns classes found := by
      rcases hfound with ⟨hparts, hall⟩ | ⟨hsimple, rfl, hc⟩
      · have hcontains : ∀ m ∈ d.members, t.Contains id m := fun m hm =>
          contains_iff.mpr ⟨d, hd, hparts.1, hm⟩
        have hmember : ∀ m ∈ d.members, ∀ classes c classes', t.Remembers classes →
            (t.classifyWithin n (id :: waiting) m).run classes = .ok c classes' →
            t.Fits m c ∧ t.Learns classes classes' := by
          intro m hm classes c classes' h hrun
          have hwaiting' : ∀ w ∈ id :: waiting, Relation.TransGen t.Contains w m :=
            List.forall_mem_cons.mpr
              ⟨.single (hcontains m hm), fun w hw => (hwaiting w hw).tail (hcontains m hm)⟩
          obtain ⟨hfits, hlearns, -⟩ := ih h hwaiting' hrun
          exact ⟨hfits, hlearns⟩
        obtain ⟨hc, hlearns⟩ := classifyAll_fits hmember h hall
        exact ⟨hc.trans ⟨.composed hd hparts, fun hdup m hm => hdup.of_contains (hcontains m hm)⟩,
          hlearns⟩
      · exact ⟨hc.trans (duplicable_iff_of_simple hd hsimple).symm, h.learns⟩
    exact ⟨hclass.1, hclass.2.insert hnew ⟨d, hd⟩ hclass.1,
      fun _ => ExtTreeMap.getElem?_insert_self⟩

section Questions

inductive Question
  | one (id : TypeId)
  | every

def ask (t : TypeTable) : Question → Classify (Option Copyability)
  | .one id => return some (← t.classifyMemo id)
  | .every => do
    t.classifyEvery
    return none

def remembered {α : Type} : EStateM.Result Fault Classes α → Classes
  | .ok _ classes => classes
  | .error _ classes => classes

def interview (t : TypeTable) (classes : Classes) :
    List Question → List (EStateM.Result Fault Classes (Option Copyability))
  | [] => []
  | q :: qs => (t.ask q).run classes :: t.interview (remembered ((t.ask q).run classes)) qs

/-- The answer to a question: the right class, or that the type is not in the table; and after the
question for all classes they are known. -/
def Answered (t : TypeTable) (result : EStateM.Result Fault Classes (Option Copyability)) :
    Question → Prop
  | .one id =>
    (t.Defines id → ∃ c classes, result = .ok (some c) classes ∧ t.Fits id c ∧
      classes[id]? = some c) ∧
      (¬t.Defines id → ∃ classes, result = .error (.missing (.type id)) classes)
  | .every => ∃ classes, result = .ok none classes ∧ ∀ id, t.Defines id → id ∈ classes

theorem fetch_of_not_defines (hid : ¬t.Defines id) : t.fetch id = .error (.missing (.type id)) := by
  cases hget : t.get? id with
  | none => rw [fetch, hget]
  | some d => exact absurd ⟨d, by rw [fetch, hget]⟩ hid

theorem classifyMemo_of_not_defines (h : t.Remembers classes) (hid : ¬t.Defines id) :
    (t.classifyMemo id).run classes = .error (.missing (.type id)) classes := by
  have hnew : classes[id]? = none :=
    Option.eq_none_iff_forall_ne_some.mpr fun c hc => hid (h.defined id c hc)
  simp only [classifyMemo, classifyWithin, EStateM.run_bind, EStateM.run_get, hnew,
    List.not_mem_nil, ↓reduceIte, fetch_of_not_defines hid]
  rfl

variable (ht : ∀ id m, t.Contains id m → t.Defines m)
include ht

theorem holds_of_defines (hid : t.Defines id) : t.Holds id := by
  intro m hm
  cases hm with
  | refl => exact hid
  | tail _ hcontains => exact ht _ m hcontains

theorem classifyMemo_of_defines (h : t.Remembers classes) (hid : t.Defines id) :
    ∃ c classes', (t.classifyMemo id).run classes = .ok c classes' ∧ t.Fits id c ∧
      t.Learns classes classes' ∧ classes'[id]? = some c := by
  obtain ⟨c, classes', hrun⟩ :=
    classifyWithin_total classes (t.size + 1) [] id (holds_of_defines ht hid) .nil (by simp)
      (by rw [List.length_nil]; omega)
  obtain ⟨hfits, hlearns, hknown⟩ := classifyWithin_fits h (by simp) hrun
  exact ⟨c, classes', hrun, hfits, hlearns, hknown List.not_mem_nil⟩

/-- The question for all types leaves all of them known. -/
theorem forM_classifyMemo (h : t.Remembers classes) {ids : List TypeId}
    (hids : ∀ id ∈ ids, t.Defines id) :
    ∃ classes', (ids.forM fun id => discard (t.classifyMemo id)).run classes = .ok () classes' ∧
      t.Learns classes classes' ∧ ∀ id ∈ ids, id ∈ classes' := by
  induction ids generalizing classes with
  | nil => exact ⟨classes, rfl, h.learns, by simp⟩
  | cons id ids ih =>
    obtain ⟨hid, hids⟩ := List.forall_mem_cons.mp hids
    obtain ⟨c, classes₁, hrun, -, hlearns, hknown⟩ := classifyMemo_of_defines ht h hid
    obtain ⟨classes₂, hrest, hlearns', hall⟩ := ih hlearns.remembers hids
    refine ⟨classes₂, (Access.run_bind_of_ok (run_discard_of_ok hrun)).trans hrest,
      hlearns.trans hlearns', ?_⟩
    refine List.forall_mem_cons.mpr ⟨ExtTreeMap.mem_iff_isSome_getElem?.mpr ?_, hall⟩
    rw [hlearns'.keeps id c hknown]
    rfl

theorem ask_answered (h : t.Remembers classes) (q : Question) :
    t.Answered ((t.ask q).run classes) q ∧ t.Remembers (remembered ((t.ask q).run classes)) := by
  cases q with
  | one id =>
    by_cases hid : t.Defines id
    · obtain ⟨c, classes', hrun, hfits, hlearns, hknown⟩ := classifyMemo_of_defines ht h hid
      have hask : (t.ask (.one id)).run classes = .ok (some c) classes' :=
        Access.run_bind_of_ok hrun
      rw [hask]
      exact ⟨⟨fun _ => ⟨c, classes', rfl, hfits, hknown⟩, fun hn => absurd hid hn⟩,
        hlearns.remembers⟩
    · have hask : (t.ask (.one id)).run classes = .error (.missing (.type id)) classes := by
        rw [ask, EStateM.run_bind, classifyMemo_of_not_defines h hid]
      rw [hask]
      exact ⟨⟨fun hd => absurd hd hid, fun _ => ⟨classes, rfl⟩⟩, h⟩
  | every =>
    obtain ⟨classes', hrun, hlearns, hall⟩ := forM_classifyMemo ht h (fun _ => defines_of_mem_ids)
    have hask : (t.ask .every).run classes = .ok none classes' := Access.run_bind_of_ok hrun
    rw [hask]
    exact ⟨⟨classes', rfl, fun id hid => hall id (mem_ids_of_defines hid)⟩, hlearns.remembers⟩

end Questions

/-- Say that each member of a struct or variant is in the table. Then questions that are asked one
after another, of which nothing is known at first, are all answered rightly, and after each of them
all that is remembered is right. -/
theorem interview_answered (ht : ∀ id m, t.Contains id m → t.Defines m) (qs : List Question) :
    List.Forall₂ (fun q result => t.Answered result q ∧ t.Remembers (remembered result)) qs
      (t.interview ∅ qs) := by
  have hall : ∀ classes, t.Remembers classes →
      List.Forall₂ (fun q result => t.Answered result q ∧ t.Remembers (remembered result)) qs
      (t.interview classes qs) := by
    induction qs with
    | nil => exact fun _ _ => .nil
    | cons q qs ih =>
      exact fun classes h => .cons (ask_answered ht h q) (ih _ (ask_answered ht h q).2)
  exact hall ∅ (remembers_empty t)

/-- A list, whose nodes and rests contain each other; a place in it; and a file, which is released
by a hook. -/
def knot : TypeTable :=
  ⟨[.scalar "Int", .struct "Node" [("value", 1), ("rest", 3)] false,
    .variant "Rest" [("More", [2, 1]), ("End", [])],
    .ref 2 false none, .struct "Place" [("node", 4), ("depth", 1)] false,
    .struct "File" [("handle", 1)] true]⟩

/-- The class of the rest of a list is asked for first, so that of a node is found while the rest
waits for it. Later all classes are asked for, and that of a type that is not there. -/
theorem knot_interview_answered : (∀ id m, knot.Contains id m → knot.Defines m) ∧
    List.Forall₂ (fun q result => knot.Answered result q ∧ knot.Remembers (remembered result))
      [.one 3, .one 5, .every, .one 2, .one 9]
      (knot.interview ∅ [.one 3, .one 5, .every, .one 2, .one 9]) := by
  have hmembers : ∀ d ∈ knot.defs, ∀ m ∈ d.members, m ∈ knot.ids := by decide
  have hknot : ∀ id m, knot.Contains id m → knot.Defines m := by
    intro id m hcontains
    obtain ⟨d, hd, -, hm⟩ := contains_iff.mp hcontains
    obtain ⟨i, -, hi⟩ := fetch_iff.mp hd
    exact defines_of_mem_ids (hmembers d (List.mem_of_getElem? hi) m hm)
  exact ⟨hknot, interview_answered hknot _⟩

end TypeTable

end Ownership

import Ownership.Proofs.TypeOrder
import Ownership.Types.Index

/-! # Registrations

A table is filled by asking it for one type after another. A request adds the type that it asks for,
finds it, or is refused because a type of another kind has its name. The indexes stay in step with
the types. So after any requests no two types are found by the same, a number stands for one type
from the first time it is given out, and only the members of that type may change.
-/
namespace Ownership
open Std

inductive Registration
  | scalar (name : String)
  | int
  | bool
  | string
  | unknown
  | ref (inner : TypeId) (exclusive : Bool) (lifetime : Option String)
  | array (element : TypeId)
  | declareStruct (name : String)
  | defineStruct (name : String) (fields : List (String × TypeId)) (finalizer : Bool)
  | declareVariant (name : String)
  | defineVariant (name : String) (arms : List (String × List TypeId))
deriving DecidableEq, Repr

namespace Registration

def type : Registration → TypeDef
  | scalar name => .scalar name
  | int => .scalar "Int"
  | bool => .scalar "Bool"
  | string => .string
  | unknown => .unknown
  | ref inner exclusive lifetime => .ref inner exclusive lifetime
  | array element => .array element
  | declareStruct name | defineStruct name _ _ => .struct name [] false
  | declareVariant name | defineVariant name _ => .variant name []

def definition? : Registration → Option TypeDef
  | defineStruct name fields finalizer => some (.struct name fields finalizer)
  | defineVariant name arms => some (.variant name arms)
  | _ => none

def refusal (r : Registration) (other : TypeKind) : NameClash :=
  match r.type with
  | .struct name _ _ => .notStruct name
  | d => .registered d.name other

theorem outline_definition (r : Registration) : (r.definition?.getD r.type).outline = r.type := by
  cases r <;> rfl

theorem outline_type (r : Registration) : r.type.outline = r.type := by
  cases r <;> rfl

theorem outline_of_definition {d : TypeDef} {r : Registration} (h : r.definition? = some d) :
    d.outline = r.type := by
  rw [← outline_definition r, h]
  rfl

theorem isNamed_of_definition {d : TypeDef} {r : Registration} (h : r.definition? = some d) :
    d.isNamed = true := by
  cases r <;> cases h <;> rfl

end Registration

namespace TypeIndex
variable {x y : TypeIndex} {id m : TypeId} {d e : TypeDef} {r : Registration}

def register : Registration → Interning TypeId
  | .scalar name => named (.scalar name)
  | .int => named (.scalar "Int")
  | .bool => named (.scalar "Bool")
  | .string => named .string
  | .unknown => named .unknown
  | .ref inner exclusive lifetime => ref ⟨inner, exclusive, lifetime⟩
  | .array element => array element
  | .declareStruct name => declareStruct name
  | .defineStruct name fields finalizer => defineStruct name fields finalizer
  | .declareVariant name => declareVariant name
  | .defineVariant name arms => defineVariant name arms

def perform (x : TypeIndex) (r : Registration) : TypeIndex × Except Refusal TypeId :=
  match (register r).run x with
  | .ok id y => (y, .ok id)
  | .error refusal y => (y, .error refusal)

def performAll (x : TypeIndex) :
    List Registration → TypeIndex × List (Registration × Except Refusal TypeId)
  | [] => (x, [])
  | r :: rs =>
    let rest := (x.perform r).1.performAll rs
    (rest.1, (r, (x.perform r).2) :: rest.2)

section Indexes
variable {κ : Type} [Ord κ] [TransOrd κ] [LawfulEqOrd κ] {index : ExtTreeMap κ TypeId}
    {defs : ExtTreeMap TypeId TypeDef}
variable {found : κ → TypeDef → Prop} {key : κ}

/-- An index has the numbers of just the types that are found by its keys. -/
def Indexes (index : ExtTreeMap κ TypeId) (defs : ExtTreeMap TypeId TypeDef)
    (found : κ → TypeDef → Prop) : Prop :=
  ∀ key id, index[key]? = some id ↔ ∃ d, defs[id]? = some d ∧ found key d

theorem Indexes.insert (h : Indexes index defs found) (hfresh : defs[id]? = none)
    (hd : ∀ k, found k d ↔ k = key)
    (hnew : ∀ (m : TypeId) (e : TypeDef), defs[m]? = some e → ¬found key e) :
    Indexes (index.insert key id) (defs.insert id d) found := by
  intro k m
  rw [ExtTreeMap.getElem?_insert, ExtTreeMap.getElem?_insert]
  by_cases hk : key = k <;> by_cases hm : id = m
  · subst hk hm
    simp [hd]
  · subst hk
    simpa [hm] using hnew m
  · subst hm
    simpa [hk, hd, Ne.symm hk, hfresh] using h k id
  · simpa [hk, hm] using h k m

omit [LawfulEqOrd κ] in
theorem Indexes.define (h : Indexes index defs found)
    (he : ∀ k, found k d ↔ ∃ e, defs[id]? = some e ∧ found k e) :
    Indexes index (defs.insert id d) found := by
  intro k m
  rw [ExtTreeMap.getElem?_insert]
  by_cases hm : id = m
  · subst hm
    simpa [he] using h k id
  · simpa [hm] using h k m

end Indexes

structure Consistent (x : TypeIndex) : Prop where
  positive : 1 ≤ x.next
  numbers : ∀ id, (∃ d, x.defs[id]? = some d) ↔ 1 ≤ id ∧ id < x.next
  byName : Indexes x.byName x.defs fun name d => d.isNamed = true ∧ d.name = name
  refs : Indexes x.refs x.defs fun key d => d = key.type
  arrays : Indexes x.arrays x.defs fun element d => d = .array element

theorem consistent_empty : Consistent {} where
  positive := le_rfl
  numbers id := by simp
  byName name id := by simp
  refs key id := by simp
  arrays element id := by simp

theorem Consistent.fresh (hx : x.Consistent) : x.defs[x.next]? = none := by
  refine Option.eq_none_iff_forall_ne_some.mpr fun d hd => ?_
  exact lt_irrefl _ ((hx.numbers x.next).mp ⟨d, hd⟩).2

/-- No two types are found by the same. -/
theorem Consistent.eq (hx : x.Consistent) (hd : x.defs[id]? = some d) (he : x.defs[m]? = some e)
    (hkey : d.key = e.key) : id = m := by
  cases hnamed : e.isNamed with
  | true =>
    obtain ⟨hnamed', hname⟩ := TypeDef.name_of_key hnamed hkey
    have hfound := (hx.byName e.name id).mpr ⟨d, hd, hnamed', hname⟩
    exact Option.some.inj (hfound.symm.trans ((hx.byName e.name m).mpr ⟨e, he, hnamed, rfl⟩))
  | false =>
    obtain rfl := TypeDef.eq_of_key hnamed hkey
    cases d with
    | ref inner exclusive lifetime =>
      have hfound := (hx.refs ⟨inner, exclusive, lifetime⟩ id).mpr ⟨_, hd, rfl⟩
      exact Option.some.inj (hfound.symm.trans ((hx.refs _ m).mpr ⟨_, he, rfl⟩))
    | array element =>
      have hfound := (hx.arrays element id).mpr ⟨_, hd, rfl⟩
      exact Option.some.inj (hfound.symm.trans ((hx.arrays element m).mpr ⟨_, he, rfl⟩))
    | scalar | string | struct | variant | unknown => cases hnamed

def enter (x : TypeIndex) (d : TypeDef) : TypeIndex :=
  let y := { x with next := x.next + 1, defs := x.defs.insert x.next d }
  match d with
  | .ref inner exclusive lifetime =>
    { y with refs := x.refs.insert ⟨inner, exclusive, lifetime⟩ x.next }
  | .array element => { y with arrays := x.arrays.insert element x.next }
  | _ => { y with byName := x.byName.insert d.name x.next }

def define (x : TypeIndex) (id : TypeId) (d : TypeDef) : TypeIndex :=
  { x with defs := x.defs.insert id d }

@[simp] theorem next_enter (x : TypeIndex) (d : TypeDef) : (x.enter d).next = x.next + 1 := by
  cases d <;> rfl

@[simp] theorem defs_enter (x : TypeIndex) (d : TypeDef) :
    (x.enter d).defs = x.defs.insert x.next d := by cases d <;> rfl

theorem enter_of_isNamed (hd : d.isNamed = true) :
    x.enter d =
      { x with
        next := x.next + 1
        defs := x.defs.insert x.next d
        byName := x.byName.insert d.name x.next } := by
  cases d with
  | scalar | string | struct | variant | unknown => rfl
  | ref | array => cases hd

theorem Consistent.numbers_enter (hx : x.Consistent) (d : TypeDef) :
    1 ≤ (x.enter d).next ∧
    ∀ id, (∃ e, (x.enter d).defs[id]? = some e) ↔ 1 ≤ id ∧ id < (x.enter d).next := by
  rw [next_enter, defs_enter]
  have hnext : x.next < x.next + 1 := Int.lt_succ x.next
  refine ⟨hx.positive.trans hnext.le, fun id => ?_⟩
  rw [ExtTreeMap.getElem?_insert]
  by_cases hid : x.next = id
  · subst hid
    simp [hx.positive, hnext]
  · rw [if_neg (by simpa using hid), hx.numbers]
    exact and_congr_right fun _ =>
      ⟨fun h => h.trans hnext, fun h => (Int.lt_add_one_iff.mp h).lt_of_ne (Ne.symm hid)⟩

theorem Consistent.enter (hx : x.Consistent)
    (hnew : ∀ (id : TypeId) (e : TypeDef), x.defs[id]? = some e → e.key ≠ d.key) :
    (x.enter d).Consistent := by
  have hfresh := hx.fresh
  obtain ⟨hpos, hnumbers⟩ := hx.numbers_enter d
  cases d with
  | ref inner exclusive lifetime =>
    refine ⟨hpos, hnumbers, hx.byName.define ?_, hx.refs.insert hfresh ?_ ?_, hx.arrays.define ?_⟩
    · simp [hfresh, TypeDef.isNamed]
    · rintro ⟨⟩
      simp [RefKey.type, eq_comm]
    · rintro m e he rfl
      exact hnew m _ he rfl
    · simp [hfresh]
  | array element =>
    refine ⟨hpos, hnumbers, hx.byName.define ?_, hx.refs.define ?_, hx.arrays.insert hfresh ?_ ?_⟩
    · simp [hfresh, TypeDef.isNamed]
    · simp [hfresh, RefKey.type]
    · simp [eq_comm]
    · rintro m e he rfl
      exact hnew m _ he rfl
  | scalar | string | struct | variant | unknown =>
    refine ⟨hpos, hnumbers, hx.byName.insert hfresh ?_ ?_, hx.refs.define ?_, hx.arrays.define ?_⟩
    · simp [TypeDef.isNamed, eq_comm]
    · rintro m e he ⟨hnamed, hname⟩
      exact hnew m e he (TypeDef.key_eq rfl hnamed hname)
    · simp [hfresh, RefKey.type]
    · simp [hfresh]

/-- A definition of the same name may be put in the place of another. -/
theorem Consistent.define (hx : x.Consistent) (he : x.defs[id]? = some e) (hd : d.isNamed = true)
    (hkey : e.key = d.key) : (x.define id d).Consistent := by
  obtain ⟨hnamed, hname⟩ := TypeDef.name_of_key hd hkey
  have hother : ∀ other : TypeDef, other.isNamed = false → d ≠ other ∧ e ≠ other := by
    rintro other hunnamed
    constructor <;> rintro rfl <;> simp_all
  refine ⟨hx.positive, fun m => ?_, hx.byName.define fun name => ?_, hx.refs.define fun key => ?_,
    hx.arrays.define fun element => ?_⟩
  · refine Iff.trans ?_ (hx.numbers m)
    rw [TypeIndex.define, ExtTreeMap.getElem?_insert]
    by_cases hm : id = m
    · subst hm
      simp [he]
    · simp [hm]
  · simp [he, hd, hnamed, hname]
  · simp [he, hother key.type rfl]
  · simp [he, hother (.array element) rfl]

inductive Outcome (x : TypeIndex) (d : TypeDef) (definition? : Option TypeDef)
    (refusal : TypeKind → NameClash) : EStateM.Result Refusal TypeIndex TypeId → Prop
  | added (hnew : ∀ (id : TypeId) (e : TypeDef), x.defs[id]? = some e → e.key ≠ d.key) :
    Outcome x d definition? refusal (.ok x.next (x.enter (definition?.getD d)))
  | found {id : TypeId} {e : TypeDef} (he : x.defs[id]? = some e) (hkey : e.key = d.key)
      (hkind : e.kind = d.kind) :
    Outcome x d definition? refusal (.ok id (definition?.elim x (x.define id)))
  | refused {id : TypeId} {e : TypeDef} (he : x.defs[id]? = some e) (hkey : e.key = d.key)
      (hkind : e.kind ≠ d.kind) :
    Outcome x d definition? refusal (.error (.clash (refusal e.kind)) x)

section Outcomes
variable {refusal : TypeKind → NameClash} {result : EStateM.Result Refusal TypeIndex TypeId}

/-- A named type is looked for by its name. -/
theorem outcome_of_name (hx : x.Consistent) (hd : d.isNamed = true)
    (hfree : x.byName[d.name]? = none → result = .ok x.next (x.enter d))
    (hsame : ∀ id e, x.byName[d.name]? = some id → x.defs[id]? = some e → e.kind = d.kind →
      result = .ok id x)
    (hother : ∀ id e, x.byName[d.name]? = some id → x.defs[id]? = some e → e.kind ≠ d.kind →
      result = .error (.clash (refusal e.kind)) x) : x.Outcome d none refusal result := by
  cases hname : x.byName[d.name]? with
  | none =>
    rw [hfree hname]
    refine .added fun id e he hkey => ?_
    cases hname.symm.trans ((hx.byName d.name id).mpr ⟨e, he, TypeDef.name_of_key hd hkey⟩)
  | some id =>
    obtain ⟨e, he, hnamed, heq⟩ := (hx.byName d.name id).mp hname
    have hkey := TypeDef.key_eq hd hnamed heq
    by_cases hkind : e.kind = d.kind
    · rw [hsame id e hname he hkind]
      exact .found he hkey hkind
    · rw [hother id e hname he hkind]
      exact .refused he hkey hkind

/-- A type without a name is looked for in an index of its own. -/
theorem outcome_of_key {κ : Type} [Ord κ] [TransOrd κ] [LawfulEqOrd κ] {index : ExtTreeMap κ TypeId}
    {type : κ → TypeDef} (hindex : Indexes index x.defs fun key d => d = type key) {key : κ}
    (hkey : (type key).isNamed = false)
    (hfree : index[key]? = none → result = .ok x.next (x.enter (type key)))
    (hfound : ∀ id, index[key]? = some id → result = .ok id x) :
    x.Outcome (type key) none refusal result := by
  cases hlookup : index[key]? with
  | none =>
    rw [hfree hlookup]
    refine .added fun id e he hsame => ?_
    cases hlookup.symm.trans ((hindex key id).mpr ⟨e, he, TypeDef.eq_of_key hkey hsame⟩)
  | some id =>
    obtain ⟨e, he, rfl⟩ := (hindex key id).mp hlookup
    rw [hfound id hlookup]
    exact .found he rfl rfl

end Outcomes

theorem run_fetch (h : x.defs[id]? = some d) : (fetch id).run x = .ok d x := by
  simp [fetch, h]

theorem run_named_of_free (hd : d.isNamed = true) (h : x.byName[d.name]? = none) :
    (named d).run x = .ok x.next (x.enter d) := by
  rw [enter_of_isNamed hd]
  simp only [named, add, EStateM.run_bind, EStateM.run_get, h]
  rfl

theorem outcome_named (hx : x.Consistent) (hd : d.isNamed = true) :
    x.Outcome d none (.registered d.name) ((named d).run x) := by
  refine outcome_of_name hx hd (run_named_of_free hd) (fun id e hname he hkind => ?_)
    fun id e hname he hkind => ?_
  · simp [named, hname, run_fetch he, hkind]
  · simp only [named, EStateM.run_bind, EStateM.run_get, hname, run_fetch he, if_neg hkind]
    rfl

theorem outcome_declareStruct (hx : x.Consistent) (name : String) :
    x.Outcome (.struct name [] false) none (fun _ => .notStruct name)
      ((declareStruct name).run x) := by
  refine outcome_of_name hx rfl (fun hname => ?_) (fun id e hname he hkind => ?_)
    fun id e hname he hkind => ?_
  · simpa [declareStruct, show x.byName[name]? = none from hname] using run_named_of_free rfl hname
  · have hkind : e.kind = .struct := hkind
    simp [declareStruct, show x.byName[name]? = some id from hname, run_fetch he, hkind]
  · have hkind : e.kind ≠ .struct := hkind
    simp only [declareStruct, EStateM.run_bind, EStateM.run_get,
      show x.byName[name]? = some id from hname, run_fetch he, if_neg hkind]
    rfl

theorem outcome_ref (hx : x.Consistent) (key : RefKey) (refusal : TypeKind → NameClash) :
    x.Outcome key.type none refusal ((ref key).run x) := by
  refine outcome_of_key hx.refs rfl (fun hkey => ?_) fun id hkey => ?_
  · simp only [ref, add, EStateM.run_bind, EStateM.run_get, hkey]
    rfl
  · simp [ref, hkey]

theorem outcome_array (hx : x.Consistent) (element : TypeId) (refusal : TypeKind → NameClash) :
    x.Outcome (.array element) none refusal ((array element).run x) := by
  refine outcome_of_key hx.arrays rfl (fun hkey => ?_) fun id hkey => ?_
  · simp only [array, add, EStateM.run_bind, EStateM.run_get, hkey]
    rfl
  · simp [array, hkey]

theorem define_enter (hd : d.isNamed = true) (he : e.isNamed = true) (hname : e.name = d.name) :
    (x.enter d).define x.next e = x.enter e := by
  have hinsert : (x.defs.insert x.next d).insert x.next e = x.defs.insert x.next e := by
    refine ExtTreeMap.ext_getElem? fun {m} => ?_
    simp only [ExtTreeMap.getElem?_insert]
    split <;> rfl
  rw [enter_of_isNamed hd, enter_of_isNamed he, define, hinsert, hname]

/-- A type that is asked for may be defined at once. -/
theorem Outcome.define {refusal : TypeKind → NameClash} {ask : Interning TypeId}
    (h : x.Outcome d none refusal (ask.run x)) (hd : d.isNamed = true) (he : e.isNamed = true)
    (hname : e.name = d.name) :
    x.Outcome d (some e) refusal ((ask >>= redefine e).run x) := by
  rw [EStateM.run_bind]
  generalize ask.run x = result at h ⊢
  cases h with
  | added hnew =>
    have hrun : (redefine e x.next).run (x.enter d) = .ok x.next (x.enter e) := by
      rw [← define_enter hd he hname]
      rfl
    dsimp only [Option.getD_none]
    rw [hrun]
    exact .added hnew
  | found hold hkey hkind => exact .found hold hkey hkind
  | refused hold hkey hkind => exact .refused hold hkey hkind

theorem outcome_register (hx : x.Consistent) (r : Registration) :
    x.Outcome r.type r.definition? r.refusal ((register r).run x) := by
  cases r with
  | scalar | int | bool | string | unknown | declareVariant => exact outcome_named hx rfl
  | ref inner exclusive lifetime => exact outcome_ref hx ⟨inner, exclusive, lifetime⟩ _
  | array element => exact outcome_array hx element _
  | declareStruct name => exact outcome_declareStruct hx name
  | defineStruct name fields finalizer => exact (outcome_declareStruct hx name).define rfl rfl rfl
  | defineVariant name arms =>
    exact (outcome_named hx (d := .variant name []) rfl).define rfl rfl rfl

def Shows (x : TypeIndex) (id : TypeId) (d : TypeDef) : Prop :=
  ∃ e, x.defs[id]? = some e ∧ e.outline = d

/-- What a granted request does. The type has a number that was given out before, and then no index
changes, or it has the next one. The other types stay as they are. -/
structure Registers (x : TypeIndex) (r : Registration) (y : TypeIndex) (id : TypeId) : Prop where
  number : 1 ≤ id ∧ id < x.next ∧ y = { x with defs := y.defs } ∨ id = x.next ∧ y.next = x.next + 1
  definition : y.defs[id]? = some (r.definition?.getD ((x.defs[id]?).getD r.type))
  others : ∀ m, m ≠ id → y.defs[m]? = x.defs[m]?

def Refuses (x : TypeIndex) (r : Registration) (clash : NameClash) : Prop :=
  ∃ (id : TypeId) (e : TypeDef), x.defs[id]? = some e ∧ e.isNamed = true ∧ r.type.isNamed = true ∧
    e.name = r.type.name ∧ e.kind ≠ r.type.kind ∧ clash = r.refusal e.kind

theorem registers_enter (hx : x.Consistent) :
    x.Registers r (x.enter (r.definition?.getD r.type)) x.next where
  number := Or.inr ⟨rfl, next_enter x _⟩
  definition := by
    rw [defs_enter, ExtTreeMap.getElem?_insert_self, hx.fresh]
    rfl
  others m hm := by rw [defs_enter, ExtTreeMap.getElem?_insert, if_neg (by simpa using Ne.symm hm)]

theorem registers_found (hx : x.Consistent) (he : x.defs[id]? = some e) :
    x.Registers r (r.definition?.elim x (x.define id)) id := by
  obtain ⟨hpos, hlt⟩ := (hx.numbers id).mp ⟨e, he⟩
  cases hdef : r.definition? with
  | none => exact ⟨Or.inl ⟨hpos, hlt, rfl⟩, by rw [hdef, he]; exact he, fun _ _ => rfl⟩
  | some d =>
    refine ⟨Or.inl ⟨hpos, hlt, rfl⟩, ?_, fun m hm => ?_⟩
    · rw [hdef]
      exact ExtTreeMap.getElem?_insert_self
    · exact ExtTreeMap.getElem?_insert.trans (if_neg (by simpa using Ne.symm hm))

section Granted
variable (h : x.Registers r y id) (htype : ∀ e, x.defs[id]? = some e → e.outline = r.type)
include h htype

theorem Registers.shows : y.Shows id r.type := by
  refine ⟨_, h.definition, ?_⟩
  cases hdef : r.definition? with
  | some d => exact Registration.outline_of_definition hdef
  | none =>
    cases hold : x.defs[id]? with
    | some e => exact htype e hold
    | none => exact r.outline_type

theorem Registers.keeps (hd : x.Shows m d) : y.Shows m d := by
  obtain ⟨e, he, rfl⟩ := hd
  by_cases hm : m = id
  · subst hm
    rw [htype e he]
    exact h.shows htype
  · exact ⟨e, (h.others m hm).trans he, rfl⟩

end Granted

/-- A granted request keeps the indexes in step, and its number stands for the type that it asks
for. -/
theorem register_granted (hx : x.Consistent) (h : (register r).run x = .ok id y) :
    y.Consistent ∧ (∀ m d, x.Shows m d → y.Shows m d) ∧ y.Shows id r.type ∧ x.Registers r y id := by
  have houtcome := outcome_register hx r
  rw [h] at houtcome
  generalize hresult : EStateM.Result.ok id y = result at houtcome
  cases houtcome with
  | added hnew =>
    cases hresult
    have hkey : (r.definition?.getD r.type).key = r.type.key := by
      rw [← TypeDef.key_outline, r.outline_definition]
    have hregisters := registers_enter (r := r) hx
    have htype : ∀ e, x.defs[x.next]? = some e → e.outline = r.type := by
      intro e he
      cases hx.fresh.symm.trans he
    refine ⟨hx.enter fun id e he => hkey ▸ hnew id e he, fun m d => hregisters.keeps htype,
      hregisters.shows htype, hregisters⟩
  | found he hkey hkind =>
    cases hresult
    have hregisters := registers_found (r := r) hx he
    have htype : ∀ e', x.defs[id]? = some e' → e'.outline = r.type := by
      intro e' he'
      cases he.symm.trans he'
      rw [TypeDef.outline_of_key hkey hkind, r.outline_type]
    refine ⟨?_, fun m d => hregisters.keeps htype, hregisters.shows htype, hregisters⟩
    cases hdef : r.definition? with
    | none => exact hx
    | some d =>
      refine hx.define he (Registration.isNamed_of_definition hdef) (hkey.trans ?_)
      rw [← TypeDef.key_outline d, Registration.outline_of_definition hdef]
  | refused => cases hresult

/-- A request is refused only for its name, and then nothing has changed. -/
theorem register_refused (hx : x.Consistent) {refusal : Refusal} :
    (register r).run x = .error refusal y ↔
      y = x ∧ ∃ clash, refusal = .clash clash ∧ x.Refuses r clash := by
  have houtcome := outcome_register hx r
  generalize (register r).run x = result at houtcome ⊢
  constructor
  · intro h
    cases houtcome with
    | added | found => cases h
    | @refused id e he hkey hkind =>
      cases h
      have hnamed : r.type.isNamed = true :=
        Bool.eq_true_of_not_eq_false fun hunnamed => hkind (by rw [TypeDef.eq_of_key hunnamed hkey])
      obtain ⟨hnamed', hname⟩ := TypeDef.name_of_key hnamed hkey
      exact ⟨rfl, _, rfl, id, e, he, hnamed', hnamed, hname, hkind, rfl⟩
  · rintro ⟨rfl, clash, rfl, id, e, he, hnamed', hnamed, hname, hkind, rfl⟩
    have hkey := TypeDef.key_eq hnamed hnamed' hname
    have honly : ∀ {id' : TypeId} {e'}, y.defs[id']? = some e' → e'.key = r.type.key → e' = e := by
      intro id' e' he' hkey'
      obtain rfl := hx.eq he' he (hkey'.trans hkey.symm)
      exact Option.some.inj (he'.symm.trans he)
    cases houtcome with
    | added hnew => exact absurd hkey (hnew id e he)
    | found he' hkey' hkind' => exact absurd (honly he' hkey' ▸ hkind') hkind
    | refused he' hkey' => rw [honly he' hkey']

theorem perform_granted :
    (x.perform r).2 = .ok id ↔ (register r).run x = .ok id (x.perform r).1 := by
  rw [perform]
  cases (register r).run x <;> simp

theorem perform_refused {refusal : Refusal} :
    (x.perform r).2 = .error refusal ↔ (register r).run x = .error refusal (x.perform r).1 := by
  rw [perform]
  cases (register r).run x <;> simp

theorem Consistent.perform (hx : x.Consistent) (r : Registration) : (x.perform r).1.Consistent := by
  cases hr : (x.perform r).2 with
  | ok id => exact (register_granted hx (perform_granted.mp hr)).1
  | error refusal =>
    rw [((register_refused hx).mp (perform_refused.mp hr)).1]
    exact hx

theorem perform_refuses (hx : x.Consistent) {refusal : Refusal} :
    (x.perform r).2 = .error refusal ↔ ∃ clash, refusal = .clash clash ∧ x.Refuses r clash := by
  constructor
  · intro h
    exact ((register_refused hx).mp (perform_refused.mp h)).2
  · intro h
    rw [perform, (register_refused hx).mpr ⟨rfl, h⟩]

def ids (x : TypeIndex) : List TypeId :=
  (List.range (x.next - 1).toNat).map fun i : Nat => (i : Int) + 1

theorem mem_ids {n : Int} : n ∈ x.ids ↔ 1 ≤ n ∧ n < x.next := by
  obtain ⟨next, hnext⟩ : ∃ next : Int, x.next = next := ⟨_, rfl⟩
  rw [ids, List.mem_map, hnext]
  constructor
  · rintro ⟨i, hi, hn⟩
    have hlt := List.mem_range.mp hi
    have heq : (i : Int) + 1 = n := hn
    omega
  · rintro ⟨hpos, hle⟩
    have heq : (((n - 1).toNat : Nat) : Int) + 1 = n := by omega
    exact ⟨(n - 1).toNat, List.mem_range.mpr (by omega), heq⟩

theorem ids_of_next_succ (hx : x.Consistent) (h : y.next = x.next + 1) :
    y.ids = x.ids ++ [x.next] := by
  obtain ⟨n, hn⟩ : ∃ n : Nat, x.next = (n : Int) + 1 :=
    ⟨(x.next - 1).toNat, by
      rw [Int.toNat_of_nonneg (Int.sub_nonneg_of_le hx.positive), Int.sub_add_cancel]⟩
  have hx' : (x.next - 1).toNat = n := by rw [hn, Int.add_sub_cancel, Int.toNat_natCast]
  have hy' : (y.next - 1).toNat = n + 1 := by rw [h, Int.add_sub_cancel, hn]; rfl
  rw [ids, ids, hx', hy', hn, List.range_succ, List.map_append, List.map_singleton]

def granted? (entry : Registration × Except Refusal TypeId) : Option TypeId := entry.2.toOption

/-- What holds after any requests. Numbers that are given out for the first time are those that are
new in the table. -/
structure Ran (x : TypeIndex)
    (run : TypeIndex × List (Registration × Except Refusal TypeId)) : Prop where
  consistent : run.1.Consistent
  keeps : ∀ id d, x.Shows id d → run.1.Shows id d
  granted : ∀ r id, (r, .ok id) ∈ run.2 → run.1.Shows id r.type
  numbers : run.1.ids = x.ids ++ ((run.2.filterMap granted?).removeAll x.ids).eraseDups

theorem removeAll_concat {α : Type} [BEq α] (l seen : List α) (a : α) :
    l.removeAll (seen ++ [a]) = (l.removeAll seen).filter fun b => !b == a := by
  simp [List.removeAll, List.filter_filter, Bool.and_comm]

theorem ran_performAll (hx : x.Consistent) (rs : List Registration) : x.Ran (x.performAll rs) := by
  induction rs generalizing x with
  | nil => exact ⟨hx, fun _ _ => id, by simp [performAll], by simp [performAll]⟩
  | cons r rs ih =>
    rw [performAll]
    cases hr : (x.perform r).2 with
    | error refusal =>
      obtain ⟨hsame, -⟩ := (register_refused hx).mp (perform_refused.mp hr)
      rw [hsame]
      obtain ⟨hconsistent, hkeeps, hgranted, hnumbers⟩ := ih hx
      exact ⟨hconsistent, hkeeps, fun r' id hmem => hgranted r' id (by simpa using hmem), hnumbers⟩
    | ok id =>
      obtain ⟨hy, hkeeps, hshows, hnumber, -, -⟩ := register_granted hx (perform_granted.mp hr)
      obtain ⟨hconsistent, hkeeps', hgranted, hnumbers⟩ := ih hy
      refine ⟨hconsistent, fun m d hd => hkeeps' m d (hkeeps m d hd), fun r' id' hmem => ?_, ?_⟩
      · rcases List.mem_cons.mp hmem with heq | hmem
        · cases heq
          exact hkeeps' _ _ hshows
        · exact hgranted r' id' hmem
      · have hfirst : ((r, Except.ok id) :: ((x.perform r).1.performAll rs).2).filterMap granted? =
            id :: ((x.perform r).1.performAll rs).2.filterMap granted? := rfl
        rw [hnumbers, hfirst, List.cons_removeAll]
        rcases hnumber with ⟨hpos, hlt, hsame⟩ | ⟨rfl, hnext⟩
        · have hids : (x.perform r).1.ids = x.ids := by rw [hsame]; rfl
          rw [if_neg (by simpa using mem_ids.mpr ⟨hpos, hlt⟩), hids]
        · have hfresh : x.next ∉ x.ids := fun hmem => lt_irrefl _ (mem_ids.mp hmem).2
          rw [if_pos (by simpa using hfresh), List.eraseDups_cons, ids_of_next_succ hx hnext,
            removeAll_concat, List.append_assoc]
          rfl

theorem map_fst_performAll (x : TypeIndex) (rs : List Registration) :
    (x.performAll rs).2.map Prod.fst = rs := by
  induction rs generalizing x with
  | nil => rfl
  | cons r rs ih => rw [performAll, List.map_cons, ih]

/-- After any requests to an empty table, granted or refused, the types are numbered from one in the
order in which they were first asked for. The index of names has each name with the one type that
has it, and the indexes of references and arrays have just those that there are, so no two types are
found by the same. Two requests have been given the same number exactly if they ask for the same
type. One more request is refused exactly if a type of another kind has its name, and changes
nothing then. A granted one changes no type but its own, and no index if that has a number. -/
theorem performAll_injective (rs : List Registration)
    {log : List (Registration × Except Refusal TypeId)} (h : performAll {} rs = (x, log)) :
    log.map Prod.fst = rs ∧
    (∀ n : Int, (∃ d, x.defs[n]? = some d) ↔ 1 ≤ n ∧ n < x.next) ∧
    (log.filterMap granted?).eraseDups =
      (List.range (x.next - 1).toNat).map (fun i : Nat => (i : Int) + 1) ∧
    (∀ name id, x.byName[name]? = some id ↔
      ∃ d : TypeDef, x.defs[id]? = some d ∧ d.isNamed = true ∧ d.name = name) ∧
    (∀ inner exclusive lifetime id,
      x.refs[RefKey.mk inner exclusive lifetime]? = some id ↔
        x.defs[id]? = some (TypeDef.ref inner exclusive lifetime)) ∧
    (∀ element id, x.arrays[element]? = some id ↔ x.defs[id]? = some (TypeDef.array element)) ∧
    (∀ (id id' : TypeId) (d d' : TypeDef),
      x.defs[id]? = some d → x.defs[id']? = some d' → d.key = d'.key → id = id') ∧
    (∀ r r' id id', (r, .ok id) ∈ log → (r', .ok id') ∈ log → (id = id' ↔ r.type = r'.type)) ∧
    (∀ r refusal, (x.perform r).2 = .error refusal ↔
      ∃ clash, refusal = .clash clash ∧ x.Refuses r clash) ∧
    (∀ r refusal, (x.perform r).2 = .error refusal → (x.perform r).1 = x) ∧
    (∀ r id, (x.perform r).2 = .ok id → x.Registers r (x.perform r).1 id) := by
  have hran := ran_performAll consistent_empty rs
  have hlog := map_fst_performAll {} rs
  rw [h] at hran hlog
  obtain ⟨hx, -, hgranted, hnumbers⟩ := hran
  refine ⟨hlog, hx.numbers, ?_, hx.byName, fun inner exclusive lifetime id => ?_,
    fun element id => ?_, fun id id' d d' hd hd' hkey => hx.eq hd hd' hkey,
    fun r r' id id' hr hr' => ?_, fun r refusal => perform_refuses hx,
    fun r refusal hr => ((register_refused hx).mp (perform_refused.mp hr)).1,
    fun r id hr => (register_granted hx (perform_granted.mp hr)).2.2.2⟩
  · rw [← ids, hnumbers]
    simp [ids, List.removeAll]
  · simpa [RefKey.type] using hx.refs ⟨inner, exclusive, lifetime⟩ id
  · simpa using hx.arrays element id
  · obtain ⟨e, he, htype⟩ := hgranted r id hr
    obtain ⟨e', he', htype'⟩ := hgranted r' id' hr'
    refine ⟨?_, fun hsame => hx.eq he he' ?_⟩
    · rintro rfl
      rw [← htype, ← htype', Option.some.inj (he.symm.trans he')]
    · rw [← TypeDef.key_outline e, ← TypeDef.key_outline e', htype, htype', hsame]

/-- A list is declared, referred to and defined twice, and two requests want its name or that of
numbers for something else. -/
def listRequests : List Registration :=
  [.int, .declareVariant "List", .ref 2 false none, .declareStruct "Int", .ref 2 true none,
    .defineVariant "List" [("End", [])], .ref 2 false none, .defineStruct "List" [] true, .array 1,
    .defineVariant "List" [("More", [1, 3]), ("End", [])]]

def listIndex : TypeIndex where
  defs :=
    .ofList ([(1, .scalar "Int"), (2, .variant "List" [("More", [1, 3]), ("End", [])]),
      (3, .ref 2 false none), (4, .ref 2 true none), (5, .array 1)] : List (TypeId × TypeDef))
  next := 6
  byName := .ofList ([("Int", 1), ("List", 2)] : List (String × TypeId))
  refs := .ofList ([(⟨2, false, none⟩, 3), (⟨2, true, none⟩, 4)] : List (RefKey × TypeId))
  arrays := .ofList ([(1, 5)] : List (TypeId × TypeId))

def listLog : List (Registration × Except Refusal TypeId) :=
  listRequests.zip [.ok 1, .ok 2, .ok 3, .error (.clash (.notStruct "Int")), .ok 4, .ok 2, .ok 3,
    .error (.clash (.notStruct "List")), .ok 5, .ok 2]

/-- The list has one number throughout. Its name may not be given to numbers, and may be to a
variant again. -/
theorem performAll_injective_list : performAll {} listRequests = (listIndex, listLog) ∧
    (listLog.filterMap granted?).eraseDups = [1, 2, 3, 4, 5] ∧
    listIndex.Refuses (.scalar "List") (.registered "List" .variant) ∧
    listIndex.Registers (.defineVariant "List" [])
      (listIndex.perform (.defineVariant "List" [])).1 2 := by
  have hrun : performAll {} listRequests = (listIndex, listLog) := by decide +kernel
  obtain ⟨-, -, hnumbers, -, -, -, -, -, hrefuses, -, hregisters⟩ :=
    performAll_injective listRequests hrun
  obtain ⟨clash, hclash, hrefused⟩ :=
    (hrefuses (.scalar "List") (.clash (.registered "List" .variant))).mp (by decide +kernel)
  cases hclash
  exact ⟨hrun, hnumbers, hrefused, hregisters _ _ (by decide +kernel)⟩

end TypeIndex

end Ownership

import Ownership.Names
import Ownership.Types.Table

/-! # The table of types and its indexes

The types by their numbers, the named ones also by name, references by what they refer to, and
arrays by their elements. The indexes are kept beside the types, and a request that is refused keeps
what it has done until then.
-/

namespace Ownership

open Std

structure RefKey where
  inner : TypeId
  exclusive : Bool
  lifetime : Option String
deriving DecidableEq, Repr

namespace RefKey

instance : Ord RefKey where
  compare := compareLex (compareOn inner) (compareLex (compareOn exclusive) (compareOn lifetime))

instance : TransOrd RefKey :=
  inferInstanceAs (TransCmp
    (compareLex (compareOn inner) (compareLex (compareOn exclusive) (compareOn lifetime))))

instance : LawfulEqOrd RefKey where
  eq_of_compare {a b} h := by
    obtain ⟨h₁, h⟩ := compareLex_eq_eq.mp h
    obtain ⟨h₂, h₃⟩ := compareLex_eq_eq.mp h
    cases a; cases b
    have h₁ := LawfulEqOrd.eq_of_compare h₁
    have h₂ := LawfulEqOrd.eq_of_compare h₂
    have h₃ := LawfulEqOrd.eq_of_compare h₃
    simp_all

def type (key : RefKey) : TypeDef := .ref key.inner key.exclusive key.lifetime

end RefKey

structure TypeIndex where
  defs : ExtTreeMap TypeId TypeDef := ∅
  next : TypeId := 1
  byName : NameMap TypeId := ∅
  refs : ExtTreeMap RefKey TypeId := ∅
  arrays : ExtTreeMap TypeId TypeId := ∅
deriving DecidableEq

/-- The refusal of a request: for its name, or because an index has a number that no type has. -/
inductive Refusal
  | clash (clash : NameClash)
  | missing (id : TypeId)
deriving DecidableEq, Repr

abbrev Interning := EStateM Refusal TypeIndex

namespace TypeIndex

def fetch (id : TypeId) : Interning TypeDef := do
  match (← get).defs[id]? with
  | some d => return d
  | none => throw (.missing id)

def add (d : TypeDef) : Interning TypeId := do
  let id := (← get).next
  modify fun x => { x with next := x.next + 1, defs := x.defs.insert id d }
  return id

/-- Gives the number of the named type of this kind, adding the type if the name is free. -/
def named (d : TypeDef) : Interning TypeId := do
  match (← get).byName[d.name]? with
  | some id =>
    let e ← fetch id
    if e.kind = d.kind then return id else throw (.clash (.registered d.name e.kind))
  | none =>
    let id ← add d
    modify fun x => { x with byName := x.byName.insert d.name id }
    return id

def ref (key : RefKey) : Interning TypeId := do
  match (← get).refs[key]? with
  | some id => return id
  | none =>
    let id ← add key.type
    modify fun x => { x with refs := x.refs.insert key id }
    return id

def array (element : TypeId) : Interning TypeId := do
  match (← get).arrays[element]? with
  | some id => return id
  | none =>
    let id ← add (.array element)
    modify fun x => { x with arrays := x.arrays.insert element id }
    return id

def declareStruct (name : String) : Interning TypeId := do
  match (← get).byName[name]? with
  | some id =>
    let e ← fetch id
    if e.kind = .struct then return id else throw (.clash (.notStruct name))
  | none => named (.struct name [] false)

/-- Gives a type that has a number another definition. -/
def redefine (d : TypeDef) (id : TypeId) : Interning TypeId := do
  modify fun x => { x with defs := x.defs.insert id d }
  return id

def defineStruct (name : String) (fields : List (String × TypeId)) (finalizer : Bool) :
    Interning TypeId := do
  redefine (.struct name fields finalizer) (← declareStruct name)

def declareVariant (name : String) : Interning TypeId := named (.variant name [])

def defineVariant (name : String) (arms : List (String × List TypeId)) : Interning TypeId := do
  redefine (.variant name arms) (← declareVariant name)

/-- The types alone, in the order of their numbers. -/
def table (x : TypeIndex) : TypeTable := ⟨x.defs.toList.map Prod.snd⟩

end TypeIndex

end Ownership

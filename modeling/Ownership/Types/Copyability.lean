import Ownership.Types.Table
import Std.Data.ExtTreeMap

/-! # Copyability

Which values may be copied and which have a single owner.

Scalars and shared references are duplicable; exclusive references, strings, arrays and unknown
types are owning. A struct or variant is duplicable if it has no finalizer and all its members
are; one that contains itself is owning.
-/

namespace Ownership

inductive Copyability
  | duplicable
  | owning
deriving DecidableEq, Repr, Inhabited

def Copyability.code : Copyability → String
  | duplicable => "DUPLICABLE"
  | owning => "OWNING"

/-- The classes found so far. -/
abbrev Classes := Std.ExtTreeMap TypeId Copyability

abbrev Classify := EStateM Fault Classes

namespace TypeTable

/-- Duplicable if every member is; members after the first owning one are not looked at. -/
def classifyAll (classify : TypeId → Classify Copyability) : List TypeId → Classify Copyability
  | [] => pure .duplicable
  | m :: ms => do
    match ← classify m with
    | .owning => return .owning
    | .duplicable => classifyAll classify ms

/-- The class of a type, while the types of `waiting` wait for it. Each nested call opens one more
type, so more calls than there are types cannot nest. -/
def classifyWithin (t : TypeTable) : Nat → List TypeId → TypeId → Classify Copyability
  | 0, _, _ => throw .endless
  | n + 1, waiting, id => do
    match (← get)[id]? with
    | some c => return c
    | none =>
      if id ∈ waiting then
        return .owning
      match t.fetch id with
      | .error e => throw e
      | .ok d =>
        let c ← match d with
          | .scalar _ => pure .duplicable
          | .ref _ exclusive _ => pure (if exclusive then .owning else .duplicable)
          | .struct _ _ finalizer =>
            if finalizer then pure .owning
            else classifyAll (t.classifyWithin n (id :: waiting)) d.members
          | .variant _ _ => classifyAll (t.classifyWithin n (id :: waiting)) d.members
          | _ => pure .owning
        modify (·.insert id c)
        return c

/-- The class of a type, found with the help of the classes known already, which it adds to. -/
def classifyMemo (t : TypeTable) (id : TypeId) : Classify Copyability :=
  t.classifyWithin (t.size + 1) [] id

/-- Classifies every type of the table. -/
def classifyEvery (t : TypeTable) : Classify Unit :=
  t.ids.forM fun id => discard (t.classifyMemo id)

/-- The class of a type. -/
def classify (t : TypeTable) (id : TypeId) : Except Fault Copyability :=
  match (t.classifyMemo id).run ∅ with
  | .ok c _ => .ok c
  | .error e _ => .error e

def isDuplicable (t : TypeTable) (id : TypeId) : Except Fault Bool :=
  return (← t.classify id) == .duplicable

end TypeTable

end Ownership

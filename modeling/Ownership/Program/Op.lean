import Ownership.Span

/-! # Operations and terminators

The elementary operations on bindings, the ways to leave a block, and the names that each of them
reads and defines.
-/

namespace Ownership

inductive LoanKind
  | exclusive
  | shared
deriving DecidableEq, Repr, Inhabited

def LoanKind.code : LoanKind → String
  | exclusive => "EXCLUSIVE"
  | shared => "SHARED"

/-- A call. `lifetimes` says which arguments the caller binds to a lifetime parameter of the
callee; what it leaves out follows from the callee's signature. -/
structure Call where
  function : String
  args : List String := []
  lifetimes : List (String × List String) := []
  dest : Option String := none
deriving DecidableEq, Repr, Inhabited

/-- The arguments bound to a lifetime by the caller. -/
def Call.boundTo (c : Call) (lifetime : String) : Option (List String) :=
  c.lifetimes.lookup lifetime

inductive Op
  /-- The binding comes into existence without a value. -/
  | declare (binding : String)
  /-- The binding gets the source's value, or a constant. -/
  | init (binding : String) (source : Option String)
  /-- The destination gets the source's value; the source keeps it only if it is duplicable. -/
  | move (dest source : String)
  /-- The destination gets a copy of the source. -/
  | copy (dest source : String)
  /-- The reference borrows the binding. -/
  | borrow (binding : String) (kind : LoanKind) (ref : String)
  /-- The binding is read. -/
  | use (ref : String)
  /-- The target, or what it refers to, gets the value of a binding or a constant. -/
  | write (target : String) (value : Option String)
  | call (call : Call)
  /-- The bindings of the scope and of the scopes inside it go. -/
  | endScope (scope : String)
  /-- An operation that is not one of the above, by its name. -/
  | unsupported (name : String)
deriving DecidableEq, Repr, Inhabited

namespace Op

/-- The bindings an operation reads. -/
def uses : Op → List String
  | init _ source => source.toList
  | move _ source => [source]
  | copy _ source => [source]
  | borrow binding _ _ => [binding]
  | use ref => [ref]
  | write target value => target :: value.toList
  | call c => c.args
  | _ => []

/-- The binding an operation gives a value, or takes the value from. -/
def defined? : Op → Option String
  | declare binding => some binding
  | init binding _ => some binding
  | move dest _ => some dest
  | copy dest _ => some dest
  | borrow _ _ ref => some ref
  | call c => c.dest
  | _ => none

def defs (op : Op) : List String := op.defined?.toList

end Op

inductive Terminator
  | jump (target : String)
  | branch (thenTarget elseTarget : String) (cond : Option String)
  | ret (value : Option String)
  /-- A terminator that is not one of the above, by its name. -/
  | unsupported (name : String)
deriving DecidableEq, Repr, Inhabited

namespace Terminator

def targets : Terminator → List String
  | jump target => [target]
  | branch thenTarget elseTarget _ => [thenTarget, elseTarget]
  | _ => []

def uses : Terminator → List String
  | branch _ _ cond => cond.toList
  | ret value => value.toList
  | _ => []

end Terminator

/-- An operation and where it is written. -/
structure Instruction where
  op : Op
  span : Span := .unknown
deriving DecidableEq, Repr, Inhabited

/-- A terminator and where it is written. -/
structure Ending where
  terminator : Terminator
  span : Span := .unknown
deriving DecidableEq, Repr, Inhabited

end Ownership

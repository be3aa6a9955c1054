import Ownership.Diagnostic

/-! # Defects and faults

Structural problems of a function, and the ways in which work on a function can break off.
-/

namespace Ownership

/-- What is structurally wrong with a function or a signature. -/
inductive Defect
  | undeclaredBound (lifetime function : String)
  | duplicateParameter (parameter function : String)
  | undeclaredParameterLifetime (parameter lifetime : String)
  | foreignReturnLifetime (lifetime function : String)
  | noBlocks (function : String)
  | unknownEntry (label function : String)
  | orphanScope (scope : String)
  | unknownParent (scope parent : String)
  | cyclicScope (scope : String)
  | unknownBindingScope (binding scope : String)
  | unsupportedOperation (name : String)
  | unsupportedTerminator (name : String)
  | noTerminator (block : String)
  | stuckBlock
  | unknownTarget (block target : String)
  | undeclaredBinding (name : String)
  | notReferenceTyped (name : String)
  | unknownCallee (function : String)
  | wrongArity (function : String) (given expected : Nat)
  | noSuchLifetime (function lifetime : String)
  | boundToNonArgument (lifetime name : String)
  | unknownScopeEnd (scope : String)
deriving DecidableEq, Repr

namespace Defect

def message : Defect → String
  | undeclaredBound lt fn => s!"outlives bound on undeclared lifetime {lt} in '{fn}'"
  | duplicateParameter p fn => s!"duplicate parameter '{p}' in '{fn}'"
  | undeclaredParameterLifetime p lt => s!"parameter '{p}' uses undeclared lifetime {lt}"
  | foreignReturnLifetime lt fn =>
    s!"return lifetime {lt} of '{fn}' is not one of its parameter lifetimes"
  | noBlocks fn => s!"function '{fn}' has no blocks"
  | unknownEntry label fn => s!"entry block '{label}' of '{fn}' does not exist"
  | orphanScope s => s!"scope '{s}' has no parent"
  | unknownParent s p => s!"scope '{s}' has unknown parent '{p}'"
  | cyclicScope s => s!"scope '{s}' is part of a parent cycle"
  | unknownBindingScope b s => s!"binding '{b}' declared in unknown scope '{s}'"
  | unsupportedOperation n => s!"unsupported operation {n}"
  | unsupportedTerminator n => s!"unsupported terminator {n}"
  | noTerminator b => s!"block '{b}' has no terminator"
  | stuckBlock => "block has no terminator"
  | unknownTarget b t => s!"block '{b}' jumps to unknown block '{t}'"
  | undeclaredBinding n => s!"reference to undeclared binding '{n}'"
  | notReferenceTyped n => s!"borrow result '{n}' is not reference-typed"
  | unknownCallee fn => s!"call to unknown function '{fn}'"
  | wrongArity fn given expected =>
    s!"call to '{fn}' passes {given} argument(s), expected {expected}"
  | noSuchLifetime fn lt => s!"'{fn}' has no lifetime parameter {lt}"
  | boundToNonArgument lt n =>
    s!"lifetime {lt} bound to '{n}', which is not an argument of the call"
  | unknownScopeEnd s => s!"end of unknown scope '{s}'"

end Defect

/-- A defect with the point and the text it was found at, as far as they are known. -/
structure Malformed where
  defect : Defect
  location : Option Location := none
  span : Span := .unknown
deriving DecidableEq, Repr

def Malformed.diagnostic (m : Malformed) : Diagnostic :=
  .malformed m.defect.message m.location m.span

/-- What a table was asked for. -/
inductive Key
  | name (text : String)
  | type (id : Int)
deriving DecidableEq, Repr

def Key.text : Key → String
  | name s => s
  | type i => toString i

/-- The ways in which work on a function breaks off: a table has no entry for a key, the function
is malformed, or the work would have no end. -/
inductive Fault
  | missing (key : Key)
  | malformed (problem : Malformed)
  | endless
deriving DecidableEq, Repr

end Ownership

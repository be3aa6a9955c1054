import Ownership.Location
import Ownership.Span

/-! # Diagnostics

What is reported about a function: the rule that was broken, the binding concerned, the program
point, and further points that explain it.
-/

namespace Ownership

inductive DiagnosticKind
  | useAfterMove
  | useOfUninitialized
  | useAfterDrop
  | conflictingBorrow
  | moveWhileBorrowed
  | writeWhileBorrowed
  | danglingReference
  | lifetimeMismatch
  | immutableWrite
  | invalidCopy
  | malformedProgram
deriving DecidableEq, Repr, Inhabited

namespace DiagnosticKind

def all : List DiagnosticKind :=
  [useAfterMove, useOfUninitialized, useAfterDrop, conflictingBorrow, moveWhileBorrowed,
    writeWhileBorrowed, danglingReference, lifetimeMismatch, immutableWrite, invalidCopy,
    malformedProgram]

/-- The name under which a kind is shown to users. -/
def code : DiagnosticKind → String
  | useAfterMove => "UseAfterMove"
  | useOfUninitialized => "UseOfUninitialized"
  | useAfterDrop => "UseAfterDrop"
  | conflictingBorrow => "ConflictingBorrow"
  | moveWhileBorrowed => "MoveWhileBorrowed"
  | writeWhileBorrowed => "WriteWhileBorrowed"
  | danglingReference => "DanglingReference"
  | lifetimeMismatch => "LifetimeMismatch"
  | immutableWrite => "ImmutableWrite"
  | invalidCopy => "InvalidCopy"
  | malformedProgram => "MalformedProgram"

def ofCode? (s : String) : Option DiagnosticKind := all.find? (fun k => k.code == s)

/-- The kinds that report an access to a binding that is not owned. Of these, one is reported for
a binding in a block until the binding gets a fresh value. -/
def isUseState : DiagnosticKind → Bool
  | useAfterMove | useOfUninitialized | useAfterDrop => true
  | _ => false

end DiagnosticKind

/-- A further program point that explains a diagnostic. -/
structure RelatedLocation where
  location : Option Location
  message : String
  span : Span := .unknown
deriving DecidableEq, Repr, Inhabited

structure Diagnostic where
  message : String
  kind : DiagnosticKind
  subject : Option String := none
  location : Option Location := none
  related : List RelatedLocation := []
  span : Span := .unknown
deriving DecidableEq, Repr, Inhabited

namespace Diagnostic

/-- Every diagnostic is an error. -/
def severity (_ : Diagnostic) : String := "error"

def phase (_ : Diagnostic) : String := "borrowcheck"

/-- The one diagnostic of a function whose structure is broken. -/
def malformed (message : String) (location : Option Location) (span : Span) : Diagnostic :=
  { message, kind := .malformedProgram, location, span }

end Diagnostic

end Ownership

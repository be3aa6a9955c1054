import Ownership.Diagnostic
import Ownership.Flow.State

/-! # Violations

A broken rule as an access finds it, before it is known where in a function the access stands. All
wordings are here.
-/

namespace Ownership

/-- A place where a reference is used. -/
structure UseSite where
  location : Location
  span : Span := .unknown
deriving DecidableEq, Repr, Inhabited

structure Violation where
  kind : DiagnosticKind
  subject : String
  message : String
  related : List RelatedLocation := []
deriving DecidableEq, Repr, Inhabited

namespace Loan

/-- Where a loan that stands in the way was taken, and where it is needed next. -/
def explain (loan : Loan) (span : Span) (nextUse : String → Option UseSite) :
    List RelatedLocation :=
  let what := match loan.kind with
    | .shared => "shared"
    | .exclusive => "exclusive"
  let taken : RelatedLocation :=
    ⟨loan.origin, s!"{what} borrow of `{loan.place}` occurs here", span⟩
  match loan.ref with
  | none => [taken]
  | some ref =>
    match nextUse ref with
    | none => [taken]
    | some site => [taken, ⟨site.location, s!"borrow later used here, by `{ref}`", site.span⟩]

end Loan

namespace Violation

/-- The violation in an access to a binding that is not owned. -/
def ofState (binding : String) (state : OwnershipState) (action : String) : Option Violation :=
  match state with
  | .owned => none
  | .moved => some ⟨.useAfterMove, binding, s!"{action} of moved value `{binding}`", []⟩
  | .dropped =>
    some ⟨.useAfterDrop, binding, s!"{action} of `{binding}` after the end of its scope", []⟩
  | .uninitialized =>
    some ⟨.useOfUninitialized, binding, s!"{action} of possibly-uninitialized `{binding}`", []⟩

def exclusivelyBorrowed (action binding : String) (related : List RelatedLocation) : Violation :=
  ⟨.conflictingBorrow, binding,
    s!"cannot {action} `{binding}` because it is borrowed as mutable", related⟩

def assignedTwice (binding : String) : Violation :=
  ⟨.immutableWrite, binding, s!"cannot assign twice to immutable binding `{binding}`", []⟩

def assignedWhileBorrowed (binding : String) (related : List RelatedLocation) : Violation :=
  ⟨.writeWhileBorrowed, binding, s!"cannot assign to `{binding}` because it is borrowed", related⟩

def writtenThroughShared (ref : String) : Violation :=
  ⟨.immutableWrite, ref, s!"cannot write through `{ref}`, which is a shared reference", []⟩

def movedWhileBorrowed (binding : String) (related : List RelatedLocation) : Violation :=
  ⟨.moveWhileBorrowed, binding, s!"cannot move out of `{binding}` because it is borrowed", related⟩

def borrowedImmutable (binding : String) : Violation :=
  ⟨.immutableWrite, binding,
    s!"cannot borrow `{binding}` as mutable, as it is not declared as mutable", []⟩

/-- How messages call a borrow of a kind. -/
def access : LoanKind → String
  | .exclusive => "mutable"
  | .shared => "immutable"

def conflicting (binding : String) (wanted held : LoanKind) (related : List RelatedLocation) :
    Violation :=
  let wanted := access wanted
  let held := access held
  ⟨.conflictingBorrow, binding,
    s!"cannot borrow `{binding}` as {wanted} because it is also borrowed as {held}", related⟩

def copiedOwning (binding type : String) : Violation :=
  ⟨.invalidCopy, binding, s!"cannot copy `{binding}` of owning type {type}", []⟩

def outlivedBy (place ref : String) (related : List RelatedLocation) : Violation :=
  ⟨.danglingReference, ref,
    s!"`{place}` does not live long enough: dropped here while still borrowed by `{ref}`", related⟩

def returnedLocal (ref place : String) (related : List RelatedLocation) : Violation :=
  ⟨.danglingReference, ref,
    s!"cannot return `{ref}`, which references local binding `{place}`", related⟩

def returnedTooShort (ref actual function promised : String) : Violation :=
  ⟨.lifetimeMismatch, ref,
    s!"returned reference `{ref}` is valid for {actual} but `{function}` promises {promised}", []⟩

def sharedForExclusive (ref function : String) : Violation :=
  ⟨.immutableWrite, ref, s!"`{ref}` is a shared reference but `{function}` expects a mutable one",
    []⟩

end Violation

end Ownership

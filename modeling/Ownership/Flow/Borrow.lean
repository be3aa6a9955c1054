import Ownership.Violation

/-! # Borrow requests

A place has at any time no loans, any number of shared loans, or one exclusive loan. A request to
borrow that would break this rule is refused on account of the first loan in the way.
-/

namespace Ownership

/-- A stable sort: the element goes behind those that are not greater. -/
def insertBy {α : Type} (le : α → α → Bool) (a : α) : List α → List α
  | [] => [a]
  | b :: l => if le b a then b :: insertBy le a l else a :: b :: l

def sortBy {α : Type} (le : α → α → Bool) (l : List α) : List α :=
  l.foldl (fun sorted a => insertBy le a sorted) []

namespace Loan

/-- Loans are met in the order of their origins, and then of the references that hold them. -/
def notAfter (a b : Loan) : Bool :=
  (compareLex (compareOn origin) (compareOn fun l => l.ref.getD "") a b).isLE

end Loan

/-- A request to borrow a place. The reference that will hold the loan gives up the one it holds. -/
structure BorrowRequest where
  place : String
  kind : LoanKind
  ref : Option String
  origin : Location
  mutable : Bool := true
  temporary : Bool := false
  span : Span := .unknown
deriving DecidableEq, Repr, Inhabited

namespace FlowState

/-- The loans that forbid a new one of the given kind. -/
def blockingLoans (s : FlowState) (place : String) (kind : LoanKind) (ref : Option String) :
    List (Loan × Span) :=
  let blocking := (s.loansOn place).keep fun l =>
    !(ref.isSome && l.ref == ref) && (kind == .exclusive || l.kind == .exclusive)
  sortBy (fun a b => a.1.notAfter b.1) blocking.toList

/-- Grants the loan asked for, or says what is against it. The state does not change. -/
def checkBorrow (s : FlowState) (r : BorrowRequest) (nextUse : String → Option UseSite) :
    Except Violation Loan :=
  let action := match r.kind with
    | .exclusive => "mutable borrow"
    | .shared => "borrow"
  match Violation.ofState r.place (s.stateOf r.place) action with
  | some v => .error v
  | none =>
    if r.kind == .exclusive && !r.mutable then
      .error (.borrowedImmutable r.place)
    else
      match s.blockingLoans r.place r.kind r.ref with
      | (first, span) :: _ =>
        .error (.conflicting r.place r.kind first.kind (first.explain span nextUse))
      | [] => .ok { place := r.place, kind := r.kind, ref := r.ref, origin := r.origin,
                    temporary := r.temporary }

end FlowState

end Ownership

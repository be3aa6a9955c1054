import Ownership.Flow.Loan
import Ownership.Names

/-! # Flow states

What is known at a program point: the state of each binding, the loans in force, the lifetimes that
each reference may come from, and the resources that each owner may hold. Where control meets, the
states of bindings meet in the worse of the two and all else is united.
-/

namespace Ownership

inductive OwnershipState
  | uninitialized
  | owned
  | moved
  | dropped
deriving DecidableEq, Repr, Inhabited

namespace OwnershipState

def all : List OwnershipState := [uninitialized, owned, moved, dropped]

def code : OwnershipState → String
  | uninitialized => "Uninitialized"
  | owned => "Owned"
  | moved => "Moved"
  | dropped => "Dropped"

def ofCode? (s : String) : Option OwnershipState := all.find? (fun k => k.code == s)

/-- Only an owned binding may be used, so every other state is worse. -/
def rank : OwnershipState → Nat
  | owned => 3
  | uninitialized => 2
  | moved => 1
  | dropped => 0

/-- The state of a binding where paths meet: the worse of the two. -/
def meet (a b : OwnershipState) : OwnershipState := if a.rank < b.rank then a else b

end OwnershipState

structure FlowState where
  states : NameMap OwnershipState := ∅
  loans : Loans := ∅
  provenance : NameMap Names := ∅
  resources : NameMap Resources := ∅

namespace FlowState

instance : Inhabited FlowState := ⟨{}⟩

/-- The same knowledge; where borrows are written does not count. -/
def agrees (a b : FlowState) : Bool :=
  a.states == b.states && a.loans.keys == b.loans.keys && a.provenance == b.provenance &&
    a.resources == b.resources

/-- A binding of which nothing is known has no value yet. -/
def stateOf (s : FlowState) (name : String) : OwnershipState := s.states.getD name .uninitialized

def provenanceOf (s : FlowState) (name : String) : Names := s.provenance.getD name ∅

def isOwned (s : FlowState) (name : String) : Bool := s.stateOf name == .owned

def loansOn (s : FlowState) (place : String) : Loans := s.loans.keep fun l => l.place == place

/-- The loans of a holder; a call holds its loans under no name. -/
def loansHeldBy (s : FlowState) (holder : Option String) : Loans :=
  s.loans.keep fun l => l.ref == holder

def setState (s : FlowState) (name : String) (state : OwnershipState) : FlowState :=
  { s with states := s.states.insert name state }

def keepLoans (s : FlowState) (p : Loan → Bool) : FlowState := { s with loans := s.loans.keep p }

def addLoan (s : FlowState) (loan : Loan) (span : Span) : FlowState :=
  { s with loans := s.loans.add loan span }

def addLoans (s : FlowState) (loans : Loans) : FlowState := { s with loans := s.loans.join loans }

def removeLoans (s : FlowState) (gone : List Loan) : FlowState :=
  s.keepLoans fun l => !gone.contains l

/-- Ends the loans of some holders. -/
def killLoansHeldBy (s : FlowState) (holders : List (Option String)) : FlowState :=
  s.keepLoans fun l => !holders.contains l.ref

def setProvenance (s : FlowState) (name : String) (lifetimes : Names) : FlowState :=
  { s with provenance := s.provenance.insert name lifetimes }

def forgetProvenance (s : FlowState) (name : String) : FlowState :=
  { s with provenance := s.provenance.erase name }

def setResources (s : FlowState) (name : String) (resources : Resources) : FlowState :=
  { s with resources := s.resources.insert name resources }

def forgetResources (s : FlowState) (name : String) : FlowState :=
  { s with resources := s.resources.erase name }

/-- The owned bindings that may hold a resource. -/
def ownersOf (s : FlowState) (r : Resource) : List String :=
  (s.resources.toList.filter fun (name, held) => held.contains r && s.isOwned name).map Prod.fst

/-- The resources after their point has created one more. -/
def ageResources (held : Resources) (origin : Location) (limit : Int) : Resources :=
  .ofList (held.toList.map fun r => if r.origin = origin then r.aged limit else r)

/-- The owner gets a resource that a point creates; what the point created before is older now,
whoever holds it. -/
def mint (s : FlowState) (owner : String) (origin : Location) (limit : Int) : FlowState :=
  { s with
    resources := (s.resources.map fun _ held => ageResources held origin limit).insert owner
      {{ origin : Resource }} }

/-- The names of both tables, each with the two values joined, or with the one there is. -/
def unite {α : Type} (join : α → α → α) (a b : NameMap α) : NameMap α :=
  b.toList.foldl
    (fun t (name, y) => t.insert name (match t[name]? with | some x => join x y | none => y)) a

/-- The states of all bindings of which either side knows. -/
def meetStates (a b : FlowState) : NameMap OwnershipState :=
  (a.states.keys ++ b.states.keys).foldl
    (fun t name => t.insert name ((a.stateOf name).meet (b.stateOf name))) ∅

/-- What is known where control from two sides meets. -/
def merge (a b : FlowState) : FlowState where
  states := meetStates a b
  loans := a.loans.join b.loans
  provenance := unite (·.union ·) a.provenance b.provenance
  resources := unite (·.union ·) a.resources b.resources

end FlowState

end Ownership

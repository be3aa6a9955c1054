import Ownership.Flow.Borrow
import Ownership.Region.Basic
import Ownership.Types.Copyability

/-! # Accesses

What an access at a program point does to the flow state, and the violation it finds. A violation
does not stop the work: the state is left as the access implies. A look-up that fails does, and the
changes made before it stay.
-/

namespace Ownership

/-- A change of the flow state that may break off. -/
abbrev Access := EStateM Fault FlowState

instance : MonadLift (Except Fault) Access where
  monadLift
    | .ok a => pure a
    | .error e => throw e

/-- A program point of a function, with what is known of the function. -/
structure Site where
  function : Function
  types : TypeTable
  regions : Option Regions := none
  location : Location
  span : Span := .unknown

namespace Site

/-- The point before the first operation of a function. -/
def atEntry (f : Function) (types : TypeTable) (regions : Option Regions) : Site where
  function := f
  types := types
  regions := regions
  location := ⟨f.name, f.entryLabel.getD "", 0⟩

def isRef (c : Site) (name : String) : Except Fault Bool :=
  return (← c.types.fetch (← c.function.binding name).type).isRef

def isExclusiveRef (c : Site) (name : String) : Except Fault Bool :=
  return (← c.types.fetch (← c.function.binding name).type).isExclusiveRef

def isDuplicable (c : Site) (name : String) : Except Fault Bool := do
  c.types.isDuplicable (← c.function.binding name).type

/-- Whether a binding owns a resource when it has a value: it is neither a reference nor
duplicable. -/
def tracksResource (c : Site) (name : String) : Except Fault Bool := do
  if ← c.isRef name then return false
  return !(← c.isDuplicable name)

def nextUse (c : Site) (ref : String) : Option UseSite :=
  c.regions.bind fun r => r.nextUse ref c.location.block c.location.index

/-- Without regions every reference counts as live. -/
def isLiveAfter (c : Site) (ref : String) : Bool :=
  c.regions.all fun r => r.isLiveAfter ref c.location.block c.location.index

/-- The binding holds a resource made here. Ages are told apart up to the number of bindings. -/
def mint (c : Site) (name : String) (s : FlowState) : FlowState :=
  s.mint name c.location c.function.bindings.size

end Site

namespace FlowState

/-- The reference is defined anew: it is owned and holds no loan. -/
def defineRef (s : FlowState) (ref : String) : FlowState :=
  ((s.killLoansHeldBy [ref]).setState ref .owned).forgetProvenance ref

/-- The binding comes, or comes back, into existence without a value. -/
def declare (s : FlowState) (name : String) : FlowState :=
  (((s.setState name .uninitialized).killLoansHeldBy [name]).forgetProvenance name).forgetResources
    name

/-- The binding is gone. -/
def drop (s : FlowState) (name : String) : FlowState :=
  ((s.setState name .dropped).forgetProvenance name).forgetResources name

end FlowState

namespace Site

/-- What is wrong with reading a binding: it has no value, or an exclusive loan shuts it. -/
def readViolation (c : Site) (s : FlowState) (name action : String) : Option Violation :=
  match Violation.ofState name (s.stateOf name) action with
  | some v => some v
  | none =>
    match ((s.loansOn name).keep fun l => l.kind == .exclusive).toList with
    | [] => none
    | (loan, span) :: _ => some (.exclusivelyBorrowed action name (loan.explain span c.nextUse))

def read (c : Site) (name : String) (action : String := "use") : Access (Option Violation) :=
  return c.readViolation (← get) name action

/-- Writes to a binding that has a value. -/
def write (c : Site) (name : String) : Access (Option Violation) := do
  let s ← get
  match Violation.ofState name (s.stateOf name) "assignment" with
  | some v => return some v
  | none =>
    if !(← c.function.binding name).mutable then
      return some (.assignedTwice name)
    else
      match (s.loansOn name).toList with
      | (loan, span) :: _ => return some (.assignedWhileBorrowed name (loan.explain span c.nextUse))
      | [] =>
        if ← c.tracksResource name then
          modify (c.mint name)
        return none

/-- Writes to what a reference refers to, or to the binding itself if it is none. -/
def writeThrough (c : Site) (target : String) : Access (Option Violation) := do
  if ← c.isRef target then
    match c.readViolation (← get) target "write through" with
    | some v => return some v
    | none =>
      if ← c.isExclusiveRef target then return none
      else return some (.writtenThroughShared target)
  else
    c.write target

/-- Takes the value out of a binding; a duplicable value is only read. -/
def moveOut (c : Site) (name : String) : Access (Option Violation) := do
  if ← c.isDuplicable name then
    c.read name
  else
    let s ← get
    match Violation.ofState name (s.stateOf name) "move" with
    | some v => return some v
    | none =>
      set (s.setState name .moved)
      match (s.loansOn name).toList with
      | [] => return none
      | (loan, span) :: _ => return some (.movedWhileBorrowed name (loan.explain span c.nextUse))

/-- The reference borrows the binding. It is defined even if the borrow is refused, and through a
reference it also borrows what that one does. -/
def borrow (c : Site) (name : String) (kind : LoanKind) (ref : String) :
    Access (Option Violation) := do
  let s ← get
  let granted := s.checkBorrow
    { place := name, kind, ref := some ref, origin := c.location,
      mutable := (← c.function.binding name).mutable, span := c.span } c.nextUse
  let through ← c.isRef name
  let inherited := if through then s.loansHeldBy name else ∅
  let provenance := if through then s.provenanceOf name else ∅
  modify (·.defineRef ref)
  match granted with
  | .error v => return some v
  | .ok loan =>
    modify fun s =>
      ((s.addLoan loan c.span).addLoans (inherited.retarget (some ref))).setProvenance
        ref provenance
    return none

/-- Adds a loan that lasts as long as a call, if it is granted. -/
def lend (c : Site) (name : String) (kind : LoanKind) (mutable : Bool) :
    Access (Except Violation Loan) := do
  let s ← get
  match s.checkBorrow
    { place := name, kind, ref := none, origin := c.location, mutable, temporary := true,
      span := c.span } c.nextUse with
  | .error v => return .error v
  | .ok loan =>
    set (s.addLoan loan c.span)
    return .ok loan

/-- Lends an owner to a call. -/
def borrowTemporary (c : Site) (name : String) (kind : LoanKind) :
    Access (Except Violation Loan) := do
  c.lend name kind (← c.function.binding name).mutable

/-- Lends what a reference refers to on to a call; the loan is on the reference. -/
def reborrowTemporary (c : Site) (ref : String) (kind : LoanKind) :
    Access (Except Violation Loan) :=
  c.lend ref kind true

/-- Gives a binding a new value. A value it has is overwritten. -/
def store (c : Site) (name : String) : Access (Option Violation) := do
  let current := (← get).stateOf name
  if current = .dropped then
    return Violation.ofState name current "assignment"
  else
    let refused ← if current = .owned then c.write name else pure none
    match refused with
    | some v => return some v
    | none =>
      if ← c.isRef name then
        modify fun s => (s.defineRef name).setProvenance name ∅
      else
        modify (·.setState name .owned)
        if current ≠ .owned then
          if ← c.tracksResource name then
            modify (c.mint name)
      return none

/-- Carries the loans and the provenance of a reference, or the resources of an owner, over to a
destination. -/
def transfer (c : Site) (dest source : String) (moved : Bool) : Access Unit := do
  if ← c.isRef source then
    let held := (← get).loansHeldBy source
    if moved then
      modify (·.killLoansHeldBy [source])
    if ← c.isRef dest then
      modify fun s =>
        (s.addLoans (held.retarget (some dest))).setProvenance dest (s.provenanceOf source)
  else if ← c.tracksResource source then
    if ← c.tracksResource dest then
      let held := (← get).resources[source]?
      if moved then
        modify (·.forgetResources source)
      match held with
      | none => return ()
      | some resources => modify (·.setResources dest resources)

/-- Assigns a source, or a constant, to a destination. The source is moved unless it is
duplicable. -/
def assign (c : Site) (dest : String) (source : Option String) : Access (List Violation) := do
  match source with
  | none => return (← c.store dest).toList
  | some source =>
    let moved := !(← c.isDuplicable source)
    let before := (← get).stateOf source
    let taken ← c.moveOut source
    match ← c.store dest with
    | some v => return taken.toList ++ [v]
    | none =>
      if before = .owned then
        c.transfer dest source moved
      return taken.toList

/-- Copies a source to a destination. A copy of an owning value is refused, but yields a value. -/
def copy (c : Site) (dest source : String) : Access (List Violation) := do
  let invalid ← if ← c.isDuplicable source then pure [] else do
    let type ← c.types.display (← c.function.binding source).type
    pure [.copiedOwning source type]
  let unreadable ← c.read source "copy"
  match ← c.store dest with
  | some v => return invalid ++ unreadable.toList ++ [v]
  | none =>
    if (← get).isOwned source then
      c.transfer dest source false
      if ← c.tracksResource dest then
        modify (c.mint dest)
    return invalid ++ unreadable.toList

/-- The bindings declared in a scope or in one inside it. -/
def bindingsOf (c : Site) (scope : String) : List String :=
  let scopes := c.function.scopeDescendants scope
  (c.function.bindings.entries.filter fun b => scopes.contains b.scope).map Binding.name

/-- The violation of a loan on a place that goes while a reference that stays needs it. -/
def dangling? (c : Site) (gone : List String) (loan : Loan) (span : Span) : Option Violation :=
  match loan.ref with
  | none => none
  | some ref =>
    if gone.contains loan.place && !gone.contains ref && c.isLiveAfter ref then
      some (.outlivedBy loan.place ref (loan.explain span c.nextUse))
    else none

/-- Ends a scope: its bindings go, and the loans on them and by them. -/
def dropScope (c : Site) (scope : String) : Access (List Violation) := do
  let s ← get
  let gone := c.bindingsOf scope
  set (gone.foldl .drop (s.keepLoans fun l =>
    !gone.contains l.place && l.ref.all fun r => !gone.contains r))
  let loans := sortBy (fun a b => a.1.notAfter b.1) s.loans.toList
  return loans.filterMap fun (loan, span) => c.dangling? gone loan span

end Site

end Ownership

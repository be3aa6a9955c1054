import Ownership.Access
import Ownership.Lifetime

/-! # The effect of a block

What the operations and the terminator of a block do to a flow state, with the violations that each
of them finds.
-/

namespace Ownership

/-- The setting in which functions are checked. Without signatures a function may call only
itself. -/
structure Checker where
  types : TypeTable
  signatures : Option (Registry Signature) := none
  policy : RegionPolicy := .lastUse
  autoBorrow : Bool := true

/-- The signatures that a function may call. -/
def Checker.signaturesFor (k : Checker) (f : Function) : Registry Signature :=
  k.signatures.getD (Registry.empty.insert f.signature)

/-- The arguments whose loans a returned reference takes over. What the caller binds to the
lifetime of the result wins; otherwise these are the arguments of the parameters with that lifetime,
or of all reference parameters if the result has none. -/
def Signature.lenders (s : Signature) (types : TypeTable) (c : Call) : Except Fault (List String) :=
  match s.returns with
  | none => return []
  | some id => do
    match ← types.fetch id with
    | .ref _ _ tag =>
      match tag.bind c.boundTo with
      | some names => return names
      | none =>
        (c.args.zip s.params).filterMapM fun (arg, p) => do
          match ← Lifetime.ofParam? types p with
          | none => return none
          | some lt =>
            match tag with
            | none => return some arg
            | some name => return if lt == {name} then some arg else none
    | _ => return []

/-- What passing the arguments of a call has come to: the violations, the owners lent, and the
loans on references lent on. -/
structure Passed where
  violations : List Violation := []
  lent : NameMap Loan := ∅
  reborrows : List Loan := []

namespace Passed

def blame (p : Passed) (v : Violation) : Passed := { p with violations := p.violations ++ [v] }

/-- The loans that end with the call. -/
def loans (p : Passed) : List Loan := p.lent.toList.map Prod.snd ++ p.reborrows

end Passed

namespace Checker

/-- Passes an argument by value. -/
def passValue (c : Site) (p : Passed) (arg : String) : Access Passed := do
  match ← c.moveOut arg with
  | none => return p
  | some v => return p.blame v

/-- Passes a reference to a reference parameter. -/
def passReference (c : Site) (callee : String) (p : Passed) (arg : String) (exclusive : Bool) :
    Access Passed := do
  match ← c.read arg with
  | some v => return p.blame v
  | none =>
    if exclusive && !(← c.isExclusiveRef arg) then
      return p.blame (.sharedForExclusive arg callee)
    else
      match ← c.reborrowTemporary arg (if exclusive then .exclusive else .shared) with
      | .error v => return p.blame v
      | .ok loan => return { p with reborrows := loan :: p.reborrows }

/-- Lends an owner to a reference parameter. -/
def passOwner (c : Site) (p : Passed) (arg : String) (exclusive : Bool) : Access Passed := do
  match ← c.borrowTemporary arg (if exclusive then .exclusive else .shared) with
  | .error v => return p.blame v
  | .ok loan => return { p with lent := p.lent.insert arg loan }

/-- Passes an argument to a parameter. -/
def passArg (k : Checker) (c : Site) (callee : String) (p : Passed) (arg : String) (param : Param) :
    Access Passed := do
  match ← c.types.fetch param.type with
  | .ref _ exclusive _ =>
    if ← c.isRef arg then passReference c callee p arg exclusive
    else if k.autoBorrow then passOwner c p arg exclusive
    else passValue c p arg
  | _ => passValue c p arg

/-- The loans and the provenance that a reference result takes over from an argument. -/
def inherit (c : Site) (s : FlowState) (p : Passed) (dest : String) (acc : Loans × Names)
    (arg : String) : Except Fault (Loans × Names) := do
  match p.lent[arg]? with
  | some loan => return (acc.1.add (loan.retarget (some dest)) c.span, acc.2)
  | none =>
    if ← c.isRef arg then
      return (acc.1.join ((s.loansHeldBy arg).retarget (some dest)),
        acc.2.union (s.provenanceOf arg))
    else return acc

/-- The loans and the provenance that the result of a call takes over from all arguments; a result
that is no reference takes over none. -/
def inheritAll (c : Site) (sig : Signature) (call : Call) (p : Passed) (dest : String)
    (s : FlowState) : Except Fault (Loans × Names) := do
  if ← c.isRef dest then
    (← sig.lenders c.types call).foldlM (inherit c s p dest) (∅, ∅)
  else return (∅, ∅)

/-- Gives the destination of a call its value, after the loans of the call have ended. -/
def receive (c : Site) (dest : String) (inherited : Loans × Names) : Access (List Violation) := do
  let refused ← c.store dest
  if ← c.isRef dest then
    if (← get).isOwned dest then
      modify fun s => (s.addLoans inherited.1).setProvenance dest inherited.2
  return refused.toList

def applyCall (k : Checker) (c : Site) (call : Call) : Access (List Violation) := do
  match (k.signaturesFor c.function).get? call.function with
  | none => throw (.missing (.name call.function))
  | some sig =>
    let passed ← (call.args.zip sig.params).foldlM
      (fun p (arg, param) => k.passArg c call.function p arg param) {}
    match call.dest with
    | none =>
      modify (·.removeLoans passed.loans)
      return passed.violations
    | some dest =>
      let inherited ← inheritAll c sig call passed dest (← get)
      modify (·.removeLoans passed.loans)
      return passed.violations ++ (← receive c dest inherited)

def applyOp (k : Checker) (c : Site) : Op → Access (List Violation)
  | .declare binding => do
    modify (·.declare binding)
    return []
  | .init binding source => c.assign binding source
  | .move dest source => c.assign dest (some source)
  | .copy dest source => c.copy dest source
  | .borrow binding kind ref => return (← c.borrow binding kind ref).toList
  | .use ref => return (← c.read ref).toList
  | .write target none => return (← c.writeThrough target).toList
  | .write target (some value) => do
    let taken ← c.moveOut value
    return taken.toList ++ (← c.writeThrough target).toList
  | .call call => k.applyCall c call
  | .endScope scope => c.dropScope scope
  | .unsupported name =>
    throw (.malformed { defect := .unsupportedOperation name, location := c.location })

/-- Returns a reference: it may refer to no local owner and lives as long as the signature
promises. -/
def returnReference (c : Site) (value : String) (s : FlowState) :
    Except Fault (List Violation) := do
  let held := sortBy (fun a b => (compare a.1.origin b.1.origin).isLE) (s.loansHeldBy value).toList
  match ← held.filterM fun (loan, _) => return !(← c.isRef loan.place) with
  | (loan, span) :: _ =>
    return [.returnedLocal value loan.place (loan.explain span fun _ => none)]
  | [] =>
    match ← Lifetime.promised? c.types c.function.signature with
    | none => return []
    | some promised =>
      let order ← LifetimeOrder.ofSignature c.types c.function.signature
      let actual := order.normalize (s.provenanceOf value)
      if order.satisfies actual promised then return []
      else
        return [.returnedTooShort value (Lifetime.render actual) c.function.name
          (Lifetime.render (order.normalize promised))]

def applyReturn (c : Site) (value : String) : Access (List Violation) := do
  if ← c.isRef value then
    match ← c.read value "return" with
    | some v => return [v]
    | none => returnReference c value (← get)
  else
    return (← c.moveOut value).toList

def applyTerminator (c : Site) : Option Terminator → Access (List Violation)
  | some (.jump _) => return []
  | some (.branch _ _ cond) =>
    match cond with
    | some name => return (← c.read name).toList
    | none => return []
  | some (.ret value) =>
    match value with
    | some name => applyReturn c name
    | none => return []
  | _ => throw (.malformed { defect := .stuckBlock, location := c.location })

end Checker

/-- What happened at a point of a block: the violations found there, and the binding that got a
fresh value. -/
structure Event where
  location : Location
  span : Span
  violations : List Violation
  refreshed : Option String := none
deriving DecidableEq, Repr, Inhabited

namespace Checker

/-- The binding to which an operation has given a fresh value. -/
def refreshed? (op : Op) (s : FlowState) : Option String :=
  op.defined?.filter fun x => s.stateOf x != .moved && s.stateOf x != .dropped

/-- The effect of one operation. Loans that are no longer needed end behind it. -/
def applyInstruction (k : Checker) (r : Regions) (c : Site) (i : Instruction) : Access Event := do
  let violations ← k.applyOp c i.op
  let refreshed := refreshed? i.op (← get)
  modify (·.keepLoans fun l => r.keepsLoanAfter l.ref c.location.block c.location.index)
  return { location := c.location, span := c.span, violations, refreshed }

/-- The effect of the terminator. -/
def applyEnding (r : Regions) (c : Site) (e : Option Ending) : Access Event := do
  let violations ← applyTerminator c (e.map Ending.terminator)
  modify (·.keepLoans fun l => r.keepsLoanAfter l.ref c.location.block c.location.index)
  return { location := c.location, span := c.span, violations }

/-- The effect of some operations of a block, the first of which has the given index, and of its
terminator. -/
def applyFrom (k : Checker) (f : Function) (r : Regions) (b : Block) :
    Int → List Instruction → Access (List Event)
  | n, [] => do
    let c : Site :=
      { function := f, types := k.types, regions := r, location := ⟨f.name, b.label, n⟩,
        span := b.endingSpan }
    return [← applyEnding r c b.ending]
  | n, i :: rest => do
    let c : Site :=
      { function := f, types := k.types, regions := r, location := ⟨f.name, b.label, n⟩,
        span := i.span }
    let event ← k.applyInstruction r c i
    return event :: (← k.applyFrom f r b (n + 1) rest)

/-- The flow state after a block, and what happened in it. -/
def transferBlock (k : Checker) (f : Function) (r : Regions) (label : String) (s : FlowState) :
    Except Fault (FlowState × List Event) := do
  let b ← f.block label
  match (k.applyFrom f r b 0 b.body).run s with
  | .ok events s => return (s, events)
  | .error e _ => throw e

/-- What of a flow state is still known on entry to a block that control goes to. -/
def enter (r : Regions) (s : FlowState) (label : String) : FlowState :=
  s.keepLoans fun l => r.keepsLoanOnEntry l.ref label

end Checker

end Ownership

import Ownership.Check.Order
import Ownership.Check.Transfer

/-! # The analysis of a function

The flow states on entry to the reachable blocks, as the least common result of all paths. Blocks
whose state on entry has grown wait to be visited; of these the first in reverse postorder is next.
-/

namespace Ownership

namespace Checker

/-- The state of a parameter when the function starts. -/
def bindParam (k : Checker) (f : Function) (s : FlowState) (p : Param) :
    Except Fault FlowState := do
  let s := s.setState p.name .owned
  match ← Lifetime.ofParam? k.types p with
  | some lt => return s.setProvenance p.name lt
  | none =>
    if ← k.types.isDuplicable p.type then return s
    else
      let index := (f.signature.params.map Param.name).idxOf p.name
      return s.setResources p.name {{ origin := ⟨f.name, "<param>", index⟩ }}

/-- The flow state when the function starts. -/
def entryState (k : Checker) (f : Function) : Except Fault FlowState :=
  f.signature.params.foldlM (k.bindParam f) {}

/-- How far the analysis has come. -/
structure Progress where
  inStates : NameMap FlowState
  outStates : NameMap FlowState := ∅
  waiting : Names
  visits : Nat := 0

/-- Lets a state flow into a block, which waits for a visit if it learns something from it. -/
def flowInto (r : Regions) (out : FlowState) (p : Progress) (label : String) : Progress :=
  let incoming := enter r out label
  match p.inStates[label]? with
  | none =>
    { p with inStates := p.inStates.insert label incoming, waiting := p.waiting.insert label }
  | some known =>
    let merged := known.merge incoming
    if merged.agrees known then p
    else { p with inStates := p.inStates.insert label merged, waiting := p.waiting.insert label }

/-- Visits a block and lets its result flow into its successors. -/
def visit (k : Checker) (f : Function) (r : Regions) (p : Progress) (label : String) :
    Except Fault Progress := do
  match p.inStates[label]? with
  | none => throw (.missing (.name label))
  | some s =>
    let (out, _) ← k.transferBlock f r label s
    let p := { p with
      outStates := p.outStates.insert label out
      waiting := p.waiting.erase label
      visits := p.visits + 1 }
    return (← f.successors label).foldl (flowInto r out) p

/-- Visits waiting blocks until none is left, at most `n` times. -/
def visitAll (k : Checker) (f : Function) (r : Regions) (order : List String) :
    Nat → Progress → Except Fault Progress
  | 0, p => .ok p
  | n + 1, p =>
    match order.find? p.waiting.contains with
    | none => .ok p
    | some label => do k.visitAll f r order n (← k.visit f r p label)

/-- How often what is known on entry to one block of a function can grow. With `b` bindings and `o`
origins of loans and resources: each binding has one of four states or none, there are at most
`4 * b * (b + 1) * o` loans, and each binding may come from each parameter's lifetime and hold each
resource. -/
def height (f : Function) : Nat :=
  let b := f.bindings.size
  let params := f.signature.params.length
  let o := f.instructions.length + params
  4 * b + 4 * b * (b + 1) * o + b * (params + 1) + b * (o * (b + 1) + 1)

/-- A number of visits that no function needs more of. -/
def visitBound (f : Function) : Nat := f.blocks.size * (height f + 1) + 1

end Checker

/-- The result of the analysis, for the reachable blocks. -/
structure Analysis where
  function : Function
  order : List String
  inStates : NameMap FlowState
  outStates : NameMap FlowState
  regions : Regions
  visits : Nat

namespace Checker

/-- Analyses a well-formed function. -/
def analyze (k : Checker) (f : Function) : Except Fault Analysis := do
  WellFormed.checkFunction f k.types (k.signaturesFor f)
  let order ← f.reversePostorder
  let regions ← Regions.compute f k.types k.policy
  match order with
  | [] => throw .endless
  | entry :: _ =>
    let start : Progress :=
      { inStates := (∅ : NameMap FlowState).insert entry (← k.entryState f), waiting := {entry} }
    let p ← k.visitAll f regions order (visitBound f) start
    return { function := f, order, inStates := p.inStates, outStates := p.outStates, regions,
             visits := p.visits }

end Checker

end Ownership

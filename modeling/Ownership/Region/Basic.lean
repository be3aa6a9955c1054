import Ownership.Region.Witness

/-! # Regions

How long a loan stays in force. Under the last-use policy it does while the reference that holds it
is live; a reference that is used nowhere keeps its loans. Under the lexical policy a loan stays
until a scope ends it.
-/

namespace Ownership

inductive RegionPolicy
  | lastUse
  | lexical
deriving DecidableEq, Repr, Inhabited

def RegionPolicy.code : RegionPolicy → String
  | lastUse => "last-use"
  | lexical => "lexical"

/-- What is known of the references of a function. `liveAfter` has an entry for each operation of a
block and one for its terminator, which is that of `liveOut`. -/
structure Regions where
  function : Function
  policy : RegionPolicy
  refs : Names
  liveIn : NameMap Names
  liveOut : NameMap Names
  liveAfter : NameMap (List Names)
  useSites : NameMap (List UseSite)
  witnessIn : NameMap (NameMap UseSite)

namespace Regions

/-- The use sites of all references that have any. -/
def sitesOf (f : Function) (refs : Names) : NameMap (List UseSite) :=
  .ofList (refs.toList.filterMap fun r =>
    match f.useSites r with
    | [] => none
    | sites => some (r, sites))

/-- The regions of a function, found without regard to whether it is well formed. -/
def compute (f : Function) (types : TypeTable) (policy : RegionPolicy) : Except Fault Regions := do
  let refs ← f.refs types
  f.checkTargets
  let useSites := sitesOf f refs
  let sites := (useSites.toList.flatMap Prod.snd).length
  match Liveness.live? f refs with
  | none => .error .endless
  | some live =>
    let liveIn := live.map fun _ sets => sets.onEntry
    match Witness.table? f refs liveIn sites with
    | none => .error .endless
    | some witnessIn =>
      let liveOut := live.map fun _ sets => sets.onExit
      let liveAfter : NameMap (List Names) := .ofList (f.blocks.entries.map fun b =>
        (b.label, Liveness.afterEach refs b (liveOut.getD b.label ∅)))
      return { function := f, policy, refs, liveIn, liveOut, liveAfter, useSites, witnessIn }

/-- A reference that is used nowhere. -/
def isUnused (r : Regions) (ref : String) : Bool := r.refs.contains ref && !r.useSites.contains ref

/-- The references that are used nowhere. -/
def unusedRefs (r : Regions) : Names := r.refs.filter fun ref => !r.useSites.contains ref

def isLiveIn (r : Regions) (ref label : String) : Bool := (r.liveIn.getD label ∅).contains ref

/-- The element at an index; a negative index counts from the end. -/
def at? {α : Type} (l : List α) (index : Int) : Option α :=
  if 0 ≤ index then l[index.toNat]?
  else if 0 ≤ index + l.length then l[(index + l.length).toNat]? else none

/-- Whether a reference is live after the operation at an index of a block. -/
def isLiveAfter (r : Regions) (ref label : String) (index : Int) : Bool :=
  match at? (r.liveAfter.getD label []) index with
  | none => false
  | some live => live.contains ref

/-- Whether loans of a holder end only with a scope: those of a call, those of a reference used
nowhere, and all under the lexical policy. -/
def isHeldFast (r : Regions) (ref : String) : Bool :=
  r.policy == .lexical || !r.refs.contains ref || r.isUnused ref

/-- Whether a loan stays in force after the operation at an index of a block. -/
def keepsLoanAfter (r : Regions) (ref : Option String) (label : String) (index : Int) : Bool :=
  ref.all fun ref => r.isHeldFast ref || r.isLiveAfter ref label index

/-- Whether a loan is still in force on entry to a block. -/
def keepsLoanOnEntry (r : Regions) (ref : Option String) (label : String) : Bool :=
  ref.all fun ref => r.isHeldFast ref || r.isLiveIn ref label

def successors (r : Regions) (label : String) : List String :=
  match r.function.blocks.get? label with
  | none => []
  | some b => b.successors

/-- The next use of a reference after the operation at an index of a block, if it is live there. -/
def nextUse (r : Regions) (ref label : String) (index : Int) : Option UseSite :=
  if r.isLiveAfter ref label index then
    match (r.useSites.getD ref []).find? fun s =>
      s.location.block == label && index < s.location.index with
    | some site => some site
    | none => Witness.ofBlocks? r.witnessIn (r.successors label) ref
  else none

/-- The borrows among some operations of a block, with the references they define. -/
def borrowsFrom (function label : String) : Int → List Instruction → List (Location × String)
  | _, [] => []
  | n, ⟨.borrow _ _ ref, _⟩ :: rest =>
    (⟨function, label, n⟩, ref) :: borrowsFrom function label (n + 1) rest
  | n, _ :: rest => borrowsFrom function label (n + 1) rest

/-- For each borrow, the blocks that its reference reaches alive, and its own. -/
def borrowRegions (r : Regions) : Std.ExtTreeMap Location Names :=
  .ofList ((r.function.blocks.entries.flatMap fun b =>
    borrowsFrom r.function.name b.label 0 b.body).map
      fun (origin, ref) =>
        let labels : Names := .ofList (r.function.blocks.names.filter fun l => r.isLiveIn ref l)
        (origin, labels.insert origin.block))

end Regions

end Ownership

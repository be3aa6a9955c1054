import Ownership.Region.Liveness
import Ownership.Violation

/-! # Use sites and witnesses

Where references are used, and for each block the first use that a live reference meets from its
entry. A block without a use of its own passes on the witness of the first successor that has one.
-/

namespace Ownership

/-- The places of a list of operations and a terminator where a reference is used. The first
operation has the given index. -/
def Block.sitesFrom (b : Block) (function ref : String) : Int → List Instruction → List UseSite
  | n, [] =>
    if b.endingUses.contains ref then [⟨⟨function, b.label, n⟩, b.endingSpan⟩] else []
  | n, i :: rest =>
    let later := b.sitesFrom function ref (n + 1) rest
    if i.op.uses.contains ref then ⟨⟨function, b.label, n⟩, i.span⟩ :: later else later

/-- The places of a function where a reference is used, in the order of its block table. -/
def Function.useSites (f : Function) (ref : String) : List UseSite :=
  f.blocks.entries.flatMap fun b => b.sitesFrom f.name ref 0 b.body

/-- The first use of a reference in a list of operations and a terminator, unless it is defined
before. -/
def Block.firstUseFrom? (b : Block) (function ref : String) :
    Int → List Instruction → Option UseSite
  | n, [] =>
    if b.endingUses.contains ref then some ⟨⟨function, b.label, n⟩, b.endingSpan⟩ else none
  | n, i :: rest =>
    if i.op.uses.contains ref then some ⟨⟨function, b.label, n⟩, i.span⟩
    else if i.op.defs.contains ref then none
    else b.firstUseFrom? function ref (n + 1) rest

namespace Witness

/-- The witness of the first block of a list that has one. -/
def ofBlocks? (table : NameMap (NameMap UseSite)) (labels : List String) (ref : String) :
    Option UseSite :=
  labels.findSome? fun l => (table.getD l ∅)[ref]?

/-- The witness of a reference on entry to a block, given those of other blocks. -/
def ofBlock? (f : Function) (table : NameMap (NameMap UseSite)) (b : Block) (ref : String) :
    Option UseSite :=
  match b.firstUseFrom? f.name ref 0 b.body with
  | some site => some site
  | none => ofBlocks? table b.successors ref

/-- The witnesses of the references live on entry to a block. -/
def entry (f : Function) (liveIn : NameMap Names) (table : NameMap (NameMap UseSite)) (b : Block) :
    NameMap UseSite :=
  .ofList ((liveIn.getD b.label ∅).toList.filterMap fun r =>
    (ofBlock? f table b r).map fun s => (r, s))

/-- One round: the blocks are looked at from the last to the first. -/
def round (f : Function) (liveIn : NameMap Names) :
    NameMap (NameMap UseSite) → NameMap (NameMap UseSite) :=
  sweep f.blocks.entries.reverse (entry f liveIn)

def start (f : Function) : NameMap (NameMap UseSite) := .ofList (f.blocks.names.map fun l => (l, ∅))

/-- The number of tables that give each block and reference one of a number of sites or none.
Rounds that do not come to rest within so many repeat for ever. -/
def tables (f : Function) (refs : Names) (sites : Nat) : Nat :=
  Nat.pow (sites + 1) (f.blocks.size * refs.size)

/-- The witnesses that rounds from an empty table come to rest at, if they do. -/
def table? (f : Function) (refs : Names) (liveIn : NameMap Names) (sites : Nat) :
    Option (NameMap (NameMap UseSite)) :=
  settled? (round f liveIn) (tables f refs sites) (start f)

end Witness

end Ownership

import Ownership.Names
import Ownership.Program.Basic
import Ownership.Settle

/-! # Liveness of references

A reference is live at a point if some path from there uses it before it is defined again. The sets
of live references are found backward, block by block, until they no longer grow. Each block is
summed up for that; between its operations the sets are found afterwards.
-/

namespace Ownership

/-- The bindings of a function that are references. -/
def Function.refs (f : Function) (types : TypeTable) : Except Fault Names :=
  f.bindings.entries.foldlM (fun refs b => do
    if (← types.fetch b.type).isRef then return refs.insert b.name else return refs) ∅

/-- Every block that control may go to exists. The blocks are asked from the last to the first. -/
def Function.checkTargets (f : Function) : Except Fault Unit :=
  f.blocks.entries.reverse.forM fun b => b.successors.forM fun l => discard (f.block l)

/-- The references live on entry to a block and after its terminator. -/
@[ext] structure LiveSets where
  onEntry : Names
  onExit : Names

instance : DecidableEq LiveSets := fun a b =>
  decidable_of_iff (a.onEntry = b.onEntry ∧ a.onExit = b.onExit) LiveSets.ext_iff.symm

instance : EmptyCollection LiveSets := ⟨⟨∅, ∅⟩⟩

namespace Liveness

/-- The references of a list that are in a set. -/
def only (refs : Names) (names : List String) : List String := names.filter refs.contains

/-- The references live before an operation, from those live after it. -/
def before (refs : Names) (i : Instruction) (after : Names) : Names :=
  (only refs i.op.uses).foldl .insert ((only refs i.op.defs).foldl .erase after)

/-- The references live before each operation of a list, and last those live after all of them. -/
def trail (refs : Names) (after : Names) : List Instruction → List Names
  | [] => [after]
  | i :: rest =>
    match trail refs after rest with
    | [] => []
    | live :: later => before refs i live :: live :: later

/-- The references live before the terminator of a block, from those live after it. -/
def beforeEnding (refs : Names) (b : Block) (out : Names) : Names :=
  (only refs b.endingUses).foldl .insert out

/-- What a block does to the live references as a whole: it adds those that it uses before it
defines them, and takes away those that it defines. -/
structure Summary where
  exposed : Names
  defined : Names

def summary (refs : Names) (b : Block) : Summary where
  exposed := b.body.foldr (before refs) (beforeEnding refs b ∅)
  defined := b.body.foldr (fun i defined => (only refs i.op.defs).foldl .insert defined) ∅

def ofBlock (refs : Names) (live : NameMap LiveSets) (b : Block) : LiveSets :=
  let onExit := b.successors.foldl (fun out l => out.union (live.getD l ∅).onEntry) ∅
  let block := summary refs b
  { onEntry := block.exposed.union (onExit.diff block.defined), onExit }

/-- The live references of each block. A round that adds none on entry to a block is the last but
one, which bounds the number of rounds. -/
def live? (f : Function) (refs : Names) : Option (NameMap LiveSets) :=
  settled? (sweep f.blocks.entries.reverse (ofBlock refs)) (f.blocks.size * refs.size + 1)
    (.ofList (f.blocks.names.map fun l => (l, ∅)))

/-- The references live after each operation of a block, and last those live after its
terminator. -/
def afterEach (refs : Names) (b : Block) (out : Names) : List Names :=
  (trail refs (beforeEnding refs b out) b.body).tail ++ [out]

end Liveness

end Ownership

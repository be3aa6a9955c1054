import Ownership.Names
import Ownership.Program.Basic

/-! # Reverse postorder

The blocks that control can reach from the entry, each before the blocks that it leads to unless
control can come back from there.
-/

namespace Ownership

namespace Function

/-- A depth-first walk: the blocks met so far, and the blocks left again, the last one first. -/
structure Walk where
  seen : Names := ∅
  order : List String := []

def Walk.meet (w : Walk) (label : String) : Walk := { w with seen := w.seen.insert label }

def Walk.leave (w : Walk) (label : String) : Walk := { w with order := label :: w.order }

/-- Walks on, for at most `n` rounds, with the open blocks on a stack, each with the number of its
next successor. A round looks at one successor of the block on top, or leaves that block if there is
none. -/
def walk (f : Function) : Nat → List (String × Nat) → Walk → Except Fault Walk
  | 0, _, _ => .error .endless
  | _ + 1, [], w => .ok w
  | n + 1, (label, i) :: stack, w => do
    match (← f.successors label)[i]? with
    | none => f.walk n stack (w.leave label)
    | some next =>
      if w.seen.contains next then f.walk n ((label, i + 1) :: stack) w
      else f.walk n ((next, 0) :: (label, i + 1) :: stack) (w.meet next)

/-- The number of rounds that a walk takes if it meets every block: one to leave each block, one for
each successor of each block, and one to find no block open. -/
def rounds (f : Function) : Nat :=
  (f.blocks.entries.flatMap fun b => b.label :: b.successors).length + 1

/-- The reachable blocks in reverse postorder. -/
def reversePostorder (f : Function) : Except Fault (List String) :=
  match f.entryLabel with
  | none => return []
  | some entry => return (← f.walk f.rounds [(entry, 0)] (Walk.meet {} entry)).order

end Function

end Ownership

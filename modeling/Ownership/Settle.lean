import Ownership.Names
import Ownership.Registry

/-! # Repetition until nothing changes

Repetition of a step until it changes nothing, and sweeps that recompute a table entry by entry.
-/

namespace Ownership

variable {α : Type}

/-- Repeats the step until a value maps to itself, at most the given number of times. -/
def settle [DecidableEq α] (step : α → α) : Nat → α → α
  | 0, x => x
  | n + 1, x => let y := step x; if y = x then x else settle step n y

/-- The value at which repetition of the step comes to rest, if it does within the given number of
times. -/
def settled? [DecidableEq α] (step : α → α) (bound : Nat) (x : α) : Option α :=
  if step (settle step bound x) = settle step bound x then some (settle step bound x) else none

theorem step_of_settled? [DecidableEq α] {step : α → α} {bound : Nat} {x y : α}
    (h : settled? step bound x = some y) : step y = y := by
  unfold settled? at h
  split at h
  · cases h; assumption
  · cases h

/-- Recomputes the entries of the given items one after another; each sees the entries before it
already recomputed. -/
def sweep {β : Type} [Named β] (items : List β) (entry : NameMap α → β → α) (table : NameMap α) :
    NameMap α :=
  items.foldl (fun t b => t.insert (Named.name b) (entry t b)) table

end Ownership

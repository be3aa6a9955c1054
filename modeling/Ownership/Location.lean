import Std.Data.ExtTreeMap

/-! # Locations

Program points: an operation of a block of a function, the terminator counted as the operation
after the last. Points are ordered by function, block and index.
-/

namespace Ownership

open Std

structure Location where
  function : String
  block : String
  index : Int
deriving DecidableEq, Repr, Inhabited

namespace Location

instance : Ord Location where
  compare := compareLex (compareOn function) (compareLex (compareOn block) (compareOn index))

instance : TransOrd Location :=
  inferInstanceAs (TransCmp (compareLex (compareOn function)
    (compareLex (compareOn block) (compareOn index))))

instance : LawfulEqOrd Location where
  eq_of_compare {a b} h := by
    obtain ⟨h₁, h₂⟩ := compareLex_eq_eq.mp h
    obtain ⟨h₂, h₃⟩ := compareLex_eq_eq.mp h₂
    cases a; cases b
    have h₁ := LawfulEqOrd.eq_of_compare h₁
    have h₂ := LawfulEqOrd.eq_of_compare h₂
    have h₃ := LawfulEqOrd.eq_of_compare h₃
    simp_all

instance : ToString Location where
  toString l := l.function ++ ":" ++ l.block ++ "[" ++ toString l.index ++ "]"

end Location

end Ownership

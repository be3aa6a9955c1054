import Ownership.Location
import Ownership.Program.Op
import Std.Data.ExtTreeSet

/-! # Loans and resources

A loan is a borrow in force: a place is lent to a reference, or to a call for as long as it runs.
Where the borrow is written is not part of the loan.

A resource is what an owning binding holds. It is known by the point that created it and by how
many newer ones that point has created since.
-/

namespace Ownership

open Std

namespace LoanKind

def rank : LoanKind → Nat
  | exclusive => 0
  | shared => 1

instance : Ord LoanKind := ⟨compareOn rank⟩

instance : TransOrd LoanKind := inferInstanceAs (TransCmp (compareOn rank))

instance : LawfulEqOrd LoanKind where
  eq_of_compare {a b} h := by
    have h : a.rank = b.rank := LawfulEqOrd.eq_of_compare h
    cases a <;> cases b <;> first | rfl | cases h

end LoanKind

structure Loan where
  place : String
  kind : LoanKind
  ref : Option String
  origin : Location
  temporary : Bool := false
deriving DecidableEq, Repr, Inhabited

namespace Loan

instance : Ord Loan where
  compare := compareLex (compareOn place) (compareLex (compareOn origin)
    (compareLex (compareOn kind) (compareLex (compareOn ref) (compareOn temporary))))

instance : TransOrd Loan :=
  inferInstanceAs (TransCmp (compareLex (compareOn place) (compareLex (compareOn origin)
    (compareLex (compareOn kind) (compareLex (compareOn ref) (compareOn temporary))))))

instance : LawfulEqOrd Loan where
  eq_of_compare {a b} h := by
    obtain ⟨h₁, h⟩ := compareLex_eq_eq.mp h
    obtain ⟨h₂, h⟩ := compareLex_eq_eq.mp h
    obtain ⟨h₃, h⟩ := compareLex_eq_eq.mp h
    obtain ⟨h₄, h₅⟩ := compareLex_eq_eq.mp h
    cases a; cases b
    have h₁ := LawfulEqOrd.eq_of_compare h₁
    have h₂ := LawfulEqOrd.eq_of_compare h₂
    have h₃ := LawfulEqOrd.eq_of_compare h₃
    have h₄ := LawfulEqOrd.eq_of_compare h₄
    have h₅ := LawfulEqOrd.eq_of_compare h₅
    simp_all

/-- The same loan held by another reference. -/
def retarget (l : Loan) (ref : Option String) : Loan := { l with ref, temporary := false }

end Loan

/-- Loans in force, each with where its borrow is written. -/
abbrev Loans := ExtTreeMap Loan Span

namespace Loans

/-- Adds a loan, unless it is there already. -/
def add (loans : Loans) (loan : Loan) (span : Span) : Loans := loans.insertIfNew loan span

/-- All loans of both; where both have one, it is written where the first says. -/
def join (a b : Loans) : Loans := b.union a

def keep (loans : Loans) (p : Loan → Bool) : Loans := loans.filter fun loan _ => p loan

/-- The loans, each held by another reference than before. -/
def retarget (loans : Loans) (ref : Option String) : Loans :=
  loans.toList.foldl (fun acc (loan, span) => acc.add (loan.retarget ref) span) ∅

end Loans

structure Resource where
  origin : Location
  generation : Int := 0
deriving DecidableEq, Repr, Inhabited

namespace Resource

instance : Ord Resource where
  compare := compareLex (compareOn origin) (compareOn generation)

instance : TransOrd Resource :=
  inferInstanceAs (TransCmp (compareLex (compareOn origin) (compareOn generation)))

instance : LawfulEqOrd Resource where
  eq_of_compare {a b} h := by
    obtain ⟨h₁, h₂⟩ := compareLex_eq_eq.mp h
    cases a; cases b
    have h₁ := LawfulEqOrd.eq_of_compare h₁
    have h₂ := LawfulEqOrd.eq_of_compare h₂
    simp_all

/-- The resource after its point has created one more; ages above the limit are not told apart. -/
def aged (r : Resource) (limit : Int) :
    Resource := { r with generation := min (r.generation + 1) limit }

end Resource

abbrev Resources := Std.ExtTreeSet Resource

end Ownership

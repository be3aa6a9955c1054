import Ownership.Proofs.LoanSource

/-! # Exclusive loans

On a run on which nothing is found, two loans on one place of which one is exclusive stem from the
same point. The exception is a reference that borrows itself: the loans it takes on itself are its
own, so none of them is in the way of the next. Copies of loans keep this, since what an exclusive
loan shuts is not read.
-/
namespace Ownership
open Std

/-- Two loans on one place may be in force together though one is exclusive: they stem from the same
point, or the place itself holds both. -/
def Loan.Compatible (l m : Loan) : Prop :=
  l.origin = m.origin ∨ (l.ref = some l.place ∧ m.ref = some m.place)

theorem Loan.Compatible.symm {l m : Loan} (h : l.Compatible m) : m.Compatible l :=
  h.imp Eq.symm And.symm

def FlowState.Exclusive (s : FlowState) : Prop :=
  ∀ l ∈ s.loans, ∀ m ∈ s.loans, l.place = m.place → l.kind = .exclusive ∨ m.kind = .exclusive →
    l.Compatible m

namespace Checker
open FlowState
variable {k : Checker} {c : Site} {op : Op} {s t : FlowState} {l m : Loan}

/-- The loan goes back to one that was there before, which is itself or from which an operand's
holder handed it to the reference that the operation defines. -/
structure StemsFrom (op : Op) (s : FlowState) (l old : Loan) : Prop where
  mem : old ∈ s.loans
  place : l.place = old.place
  kind : l.kind = old.kind
  origin : l.origin = old.origin
  holder : l.ref = old.ref ∨ ∃ x d, x ∈ op.uses ∧ old.ref = some x ∧ d ∈ op.defs ∧ l.ref = some d

theorem eq_of_mem_defs {x y : String} (hx : x ∈ op.defs) (hy : y ∈ op.defs) : x = y := by
  rw [Op.defs, Option.mem_toList] at hx hy
  exact Option.some.inj (hx.symm.trans hy)

section
variable (hfit : op.Fits c.function c.types (k.signaturesFor c.function)) (h : k.Performs c s t op)
include hfit h

/-- A place that holds an exclusive loan on itself keeps what it holds on itself: only a borrow
reads it, and it borrows for itself. -/
theorem StemsFrom.self_held {old shut : Loan} (hl : StemsFrom op s l old)
    (hold : old.ref = some old.place) (hshut : shut ∈ s.loans) (hplace : shut.place = old.place)
    (hkind : shut.kind = .exclusive)
    (hholder : shut.ref = some old.place) : l.ref = some l.place := by
  rcases hl.holder with heq | ⟨x, d, hx, hx', hd, hld⟩
  · rw [heq, hold, hl.place]
  · obtain rfl : old.place = x := Option.some.inj (hold.symm.trans hx')
    obtain ⟨kind, ref, rfl, href⟩ := h.operand_free hfit hx hshut hplace hkind
    obtain rfl : old.place = ref := Option.some.inj (hholder.symm.trans href)
    rw [hld, hl.place, eq_of_mem_defs hd (List.mem_singleton_self old.place)]

/-- Loans that go back to compatible ones are compatible. -/
theorem StemsFrom.compatible {old old' : Loan} (hs : s.Exclusive) (hl : StemsFrom op s l old)
    (hm : StemsFrom op s m old') (hplace : l.place = m.place)
    (hkind : l.kind = .exclusive ∨ m.kind = .exclusive) :
    l.Compatible m := by
  have hplace' : old.place = old'.place := by rw [← hl.place, ← hm.place, hplace]
  rw [hl.kind, hm.kind] at hkind
  rcases hs old hl.mem old' hm.mem hplace' hkind with horigin | ⟨hself, hself'⟩
  · exact Or.inl (by rw [hl.origin, hm.origin, horigin])
  · obtain ⟨shut, hshut, hshutp, hshutk, hshuth⟩ : ∃ shut ∈ s.loans, shut.place = old.place ∧
        shut.kind = .exclusive ∧ shut.ref = some old.place := by
      rcases hkind with hk | hk
      · exact ⟨old, hl.mem, rfl, hk, hself⟩
      · exact ⟨old', hm.mem, hplace'.symm, hk, by rw [hself', hplace']⟩
    refine Or.inr ⟨hl.self_held hfit h hself hshut hshutp hshutk hshuth, ?_⟩
    rw [hplace'] at hshutp hshuth
    exact hm.self_held hfit h hself' hshut hshutp hshutk hshuth

end

/-- A loan that is taken goes together with what there is behind the operation. -/
theorem Taken.compatible {d : String} (h : Taken c op s l d) (hm : Source c op s m)
    (hplace : l.place = m.place) (hkind : l.kind = .exclusive ∨ m.kind = .exclusive) :
    l.Compatible m := by
  cases hm with
  | kept hmem hother =>
    exact absurd (h.free m hmem hplace.symm hkind).1 (hother d h.defined h.isRef)
  | taken h' => exact Or.inl (h.origin.trans h'.origin.symm)
  | @cloned old x e hmem hx hx' he _ heq =>
    subst heq
    obtain ⟨hheld, kind, rfl⟩ := h.free old hmem hplace.symm hkind
    -- the operand is the place, and it holds a loan only as the reference that borrows
    obtain rfl := List.mem_singleton.mp hx
    obtain rfl : d = l.place := Option.some.inj (hheld.symm.trans hx')
    refine Or.inr ⟨h.holder, ?_⟩
    rw [Loan.retarget_ref, ← hplace, eq_of_mem_defs he h.defined]

theorem Source.taken_or_stems (h : Source c op s l) :
    (∃ d, Taken c op s l d) ∨ ∃ old, StemsFrom op s l old := by
  cases h with
  | kept hmem _ => exact Or.inr ⟨l, hmem, rfl, rfl, rfl, Or.inl rfl⟩
  | taken h => exact Or.inl ⟨_, h⟩
  | @cloned old x d hmem hx hholder hd _ heq =>
    subst heq
    exact Or.inr ⟨old, hmem, rfl, rfl, rfl, Or.inr ⟨x, d, hx, hholder, hd, rfl⟩⟩

theorem Performs.exclusive (hfit : op.Fits c.function c.types (k.signaturesFor c.function))
    (h : k.Performs c s t op) (hs : s.Exclusive) : t.Exclusive := by
  intro l hl m hm hplace hkind
  have hsl := h.loan_source hfit hl
  have hsm := h.loan_source hfit hm
  rcases hsl.taken_or_stems with ⟨d, htaken⟩ | ⟨old, hl⟩
  · exact htaken.compatible hsm hplace hkind
  · rcases hsm.taken_or_stems with ⟨d, htaken⟩ | ⟨old', hm⟩
    · exact (htaken.compatible hsl hplace.symm hkind.symm).symm
    · exact hl.compatible hfit h hs hm hplace hkind

theorem exclusive_kept {f : Function} : k.Kept f Exclusive where
  entry s hs l hl := absurd hl (entryState_loans hs l)
  op c op s t hf ht hfit hop hs := by
    subst hf
    rw [← ht] at hfit
    exact (applyOp_nil_iff.mp hop).exclusive hfit hs
  ending c terminator s t hop hs := by
    rw [Exclusive, (applyTerminator_nil_iff.mp hop).loans]
    exact hs
  loans s p hs l hl m hm := hs l (mem_keepLoans.mp hl).1 m (mem_keepLoans.mp hm).1

variable {f : Function} {r : Regions} {path : List String} {n : Nat} {es : List Event}

/-- At every point that a run along a path comes to with nothing found, whatever the regions by
which it ends loans, two loans on one place of which one is exclusive have the same origin, or both
are held by the place. -/
theorem exclusive_loans_compatible
    (hf : WellFormed.checkFunction f k.types (k.signaturesFor f) = .ok ())
    (h : k.Comes f r path n s es) (hes : Event.found es = []) (hl : l ∈ s.loans) (hm : m ∈ s.loans)
    (hplace : l.place = m.place) (hkind : l.kind = .exclusive ∨ m.kind = .exclusive) :
    l.origin = m.origin ∨ (l.ref = some l.place ∧ m.ref = some l.place) := by
  have hexclusive := h.kept exclusive_kept (WellFormed.checkFunction_inv hf) hes
  have hcompatible := hexclusive l hl m hm hplace hkind
  rwa [Loan.Compatible, ← hplace] at hcompatible

end Checker

def TypeTable.exclusive : TypeTable := ⟨[.scalar "Int", .ref 1 true none]⟩

def Function.selfBorrow : Function :=
  ofParts "selfBorrow" [{ name := "x", type := 1, mutable := true },
    { name := "p", type := 2, mutable := true }]
    [{ label := "entry",
       body := [{ op := .init "x" none }, { op := .borrow "x" .exclusive "p" },
         { op := .borrow "p" .exclusive "p" },
         { op := .borrow "p" .exclusive "p" }],
       ending := some { terminator := .ret none } }]

namespace Checker

def exclusive : Checker := { types := .exclusive }

def selfLoan (index : Int) : Loan where
  place := "p"
  kind := .exclusive
  ref := some "p"
  origin := ⟨"selfBorrow", "entry", index⟩

/-- If loans last as long as their scope, the reference that borrows itself twice holds two
exclusive loans on itself, from different points. -/
theorem exclusive_loans_selfBorrow : ∃ (r : Regions) (s : FlowState) (es : List Event) (l m : Loan),
    WellFormed.checkFunction .selfBorrow exclusive.types
      (exclusive.signaturesFor .selfBorrow) = .ok () ∧
    Regions.compute .selfBorrow .exclusive .lexical = .ok r ∧
    exclusive.Comes .selfBorrow r ["entry"] 4 s es ∧
    Event.found es = [] ∧ l ∈ s.loans ∧ m ∈ s.loans ∧ l.place = m.place ∧ l.kind = .exclusive ∧
    l.origin ≠ m.origin ∧
    (l.origin = m.origin ∨ (l.ref = some l.place ∧ m.ref = some l.place)) := by
  have hf : WellFormed.checkFunction .selfBorrow exclusive.types
      (exclusive.signaturesFor .selfBorrow) = .ok () := by
    decide
  have hrun : (do
      let r ← Regions.compute .selfBorrow .exclusive .lexical
      let run ← exclusive.followTo .selfBorrow r ["entry"] 4
      return (Event.found run.2 = [] ∧ run.1.loans.contains (selfLoan 2) ∧
        run.1.loans.contains (selfLoan 3) : Bool) :
        Except Fault Bool) = .ok true := by decide +kernel
  obtain ⟨r, hr, hrun⟩ := Except.bind_inv hrun
  obtain ⟨⟨s, es⟩, hfollow, hrun⟩ := Except.bind_inv hrun
  obtain ⟨hes, hfirst, hsecond⟩ := of_decide_eq_true (Except.ok.inj hrun)
  have hcomes := comes_of_followTo (.singleton rfl) hfollow rfl (by decide)
  exact ⟨r, s, es, selfLoan 2, selfLoan 3, hf, hr, hcomes, hes, hfirst, hsecond, rfl,
    rfl, by decide, exclusive_loans_compatible hf hcomes hes hfirst hsecond rfl (Or.inl rfl)⟩

end Checker

end Ownership

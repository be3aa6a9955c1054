import Ownership.Proofs.LifetimeOrder
import Ownership.Proofs.Touch

/-! # States that allow for others

A joined state allows for the state of each path that leads to it: no binding is better off, and all
loans and lifetimes of the path are there. What finds nothing wrong from the joined state finds
nothing wrong from the state of the path, and leaves it allowed for. The one exception is a new
value for a binding: on the path there may be an old one, which may not be overwritten.
-/
namespace Ownership
open Std

/-- Two folds over one list whose steps keep a relation end related, and the second goes through if
the first does. -/
theorem Except.foldlM_related {α β γ : Type} {R : α → β → Prop} {g : α → γ → Except Fault α}
    {g' : β → γ → Except Fault β} {xs : List γ}
    (hstep : ∀ x ∈ xs, ∀ a b a', R a b → g a x = .ok a' → ∃ b', g' b x = .ok b' ∧ R a' b')
    {a a' : α} {b : β}
    (hab : R a b) (h : xs.foldlM g a = .ok a') : ∃ b', xs.foldlM g' b = .ok b' ∧ R a' b' := by
  induction xs generalizing a b with
  | nil =>
    cases h
    exact ⟨b, rfl, hab⟩
  | cons x xs ih =>
    obtain ⟨hx, hxs⟩ := List.forall_mem_cons.mp hstep
    rw [List.foldlM_cons] at h
    obtain ⟨u, hu, h⟩ := Except.bind_inv h
    obtain ⟨v, hv, huv⟩ := hx a b u hab hu
    rw [List.foldlM_cons, Except.bind_of_ok hv]
    exact ih hxs huv h

namespace FlowState
variable {j j' p p' : FlowState} {name : String}

/-- The first state allows for the second. -/
structure Covers (j p : FlowState) : Prop where
  states : ∀ x, (j.stateOf x).rank ≤ (p.stateOf x).rank
  loans : ∀ l ∈ p.loans, l ∈ j.loans
  provenance : ∀ x, ∀ lt ∈ p.provenanceOf x, lt ∈ j.provenanceOf x

structure SameRules (s t : FlowState) : Prop where
  states : t.states = s.states
  loans : t.loans = s.loans
  provenance : t.provenance = s.provenance

theorem mem_provenanceOf {s : FlowState} {x lt : String} :
    lt ∈ s.provenanceOf x ↔ ∃ u, s.provenance[x]? = some u ∧ lt ∈ u :=
  mem_getD_iff

theorem Below.covers (h : Below p j) : Covers j p where
  states := h.states
  loans := h.loans
  provenance _ _ hlt := h.provenance.mem_getD hlt

namespace Covers

theorem trans (h : Covers j p) (h' : Covers j' j) : Covers j' p where
  states x := Nat.le_trans (h'.states x) (h.states x)
  loans l hl := h'.loans l (h.loans l hl)
  provenance x lt hlt := h'.provenance x lt (h.provenance x lt hlt)

theorem owned (h : Covers j p) (hj : j.stateOf name = .owned) : p.stateOf name = .owned := by
  have hrank := h.states name
  rw [hj] at hrank
  exact OwnershipState.eq_owned_of_rank_le hrank

theorem not_dropped (h : Covers j p) (hj : j.stateOf name ≠ .dropped) :
    p.stateOf name ≠ .dropped := by
  intro hp
  have hrank := h.states name
  rw [hp] at hrank
  cases hjs : j.stateOf name <;> rw [hjs] at hrank hj <;>
    first | exact hj rfl | simp [OwnershipState.rank] at hrank

theorem congr (h : Covers j p) (hj : SameRules j j') (hp : SameRules p p') : Covers j' p' where
  states x := by
    rw [stateOf_congr hj.states, stateOf_congr hp.states]
    exact h.states x
  loans := by
    rw [hj.loans, hp.loans]
    exact h.loans
  provenance x := by
    rw [provenanceOf, provenanceOf, hj.provenance, hp.provenance]
    exact h.provenance x

theorem setState (h : Covers j p) (name : String) (state : OwnershipState) :
    Covers (j.setState name state) (p.setState name state) where
  states x := by
    rw [stateOf_setState, stateOf_setState]
    split
    · exact Nat.le_refl _
    · exact h.states x
  loans := h.loans
  provenance := h.provenance

theorem keepLoans (h : Covers j p) (q : Loan → Bool) : Covers (j.keepLoans q) (p.keepLoans q) where
  states := h.states
  loans l hl := by
    obtain ⟨hl, hq⟩ := mem_keepLoans.mp hl
    exact mem_keepLoans.mpr ⟨h.loans l hl, hq⟩
  provenance := h.provenance

theorem addLoans (h : Covers j p) {more more' : Loans} (hm : ∀ l ∈ more', l ∈ more) :
    Covers (j.addLoans more) (p.addLoans more') where
  states := h.states
  loans l hl := by
    rcases mem_addLoans.mp hl with hl | hl
    · exact mem_addLoans.mpr (Or.inl (h.loans l hl))
    · exact mem_addLoans.mpr (Or.inr (hm l hl))
  provenance := h.provenance

theorem addLoan (h : Covers j p) (loan : Loan) (span : Span) :
    Covers (j.addLoan loan span) (p.addLoan loan span) where
  states := h.states
  loans l hl := by
    rcases mem_addLoan.mp hl with hl | hl
    · exact mem_addLoan.mpr (Or.inl hl)
    · exact mem_addLoan.mpr (Or.inr (h.loans l hl))
  provenance := h.provenance

theorem setProvenance (h : Covers j p) (name : String) {lts lts' : Names}
    (hl : ∀ lt ∈ lts', lt ∈ lts) :
    Covers (j.setProvenance name lts) (p.setProvenance name lts') where
  states := h.states
  loans := h.loans
  provenance x lt hlt := by
    rw [mem_provenanceOf] at hlt ⊢
    simp only [getElem?_setProvenance] at hlt ⊢
    split at hlt
    · obtain ⟨_, ⟨⟩, hlt⟩ := hlt
      rename_i heq
      rw [if_pos heq]
      exact ⟨lts, rfl, hl lt hlt⟩
    · rename_i hne
      rw [if_neg hne]
      exact mem_provenanceOf.mp (h.provenance x lt (mem_provenanceOf.mpr hlt))

theorem forgetProvenance (h : Covers j p) (name : String) :
    Covers (j.forgetProvenance name) (p.forgetProvenance name) where
  states := h.states
  loans := h.loans
  provenance x lt hlt := by
    rw [mem_provenanceOf] at hlt ⊢
    simp only [getElem?_forgetProvenance] at hlt ⊢
    split at hlt
    · obtain ⟨_, ⟨⟩, _⟩ := hlt
    · rename_i hne
      rw [if_neg hne]
      exact mem_provenanceOf.mp (h.provenance x lt (mem_provenanceOf.mpr hlt))

theorem forgetResources (h : Covers j p) (name : String) :
    Covers (j.forgetResources name) (p.forgetResources name) :=
  h.congr ⟨rfl, rfl, rfl⟩ ⟨rfl, rfl, rfl⟩

theorem defineRef (h : Covers j p) (ref : String) : Covers (j.defineRef ref) (p.defineRef ref) :=
  ((h.keepLoans _).setState ref .owned).forgetProvenance ref

theorem declare (h : Covers j p) (name : String) : Covers (j.declare name) (p.declare name) :=
  (((h.setState name .uninitialized).keepLoans _).forgetProvenance name).forgetResources name

theorem drop (h : Covers j p) (name : String) : Covers (j.drop name) (p.drop name) :=
  ((h.setState name .dropped).forgetProvenance name).forgetResources name

theorem foldl_drop (h : Covers j p) (names : List String) :
    Covers (names.foldl .drop j) (names.foldl .drop p) := by
  induction names generalizing j p with
  | nil => exact h
  | cons name names ih => exact ih (h.drop name)

/-- The loans of a holder that go to another. -/
theorem retarget (h : Covers j p) (holder ref : Option String) :
    ∀ l ∈ (p.loansHeldBy holder).retarget ref, l ∈ (j.loansHeldBy holder).retarget ref := by
  intro l hl
  obtain ⟨m, hm, rfl⟩ := Loans.mem_retarget.mp hl
  obtain ⟨hm, href⟩ := mem_loansHeldBy.mp hm
  exact Loans.mem_retarget.mpr ⟨m, mem_loansHeldBy.mpr ⟨h.loans m hm, href⟩, rfl⟩

theorem checkBorrow (h : Covers j p) {r : BorrowRequest} {nextUse : String → Option UseSite}
    {loan : Loan} (hj : j.checkBorrow r nextUse = .ok loan) :
    p.checkBorrow r nextUse = .ok loan := by
  obtain ⟨hstate, hmut, hfree, hloan⟩ := checkBorrow_ok_iff.mp hj
  exact checkBorrow_ok_iff.mpr ⟨h.owned hstate, hmut, fun l hl => hfree l (h.loans l hl), hloan⟩

end Covers

end FlowState

namespace Site
open FlowState
variable {c : Site} {j j' p : FlowState} {name dest source ref : String}

theorem readViolation_covered (h : Covers j p) {action : String}
    (hj : c.readViolation j name action = none) : c.readViolation p name action = none := by
  obtain ⟨hstate, hfree⟩ := readViolation_eq_none.mp hj
  exact readViolation_eq_none.mpr ⟨h.owned hstate, fun l hl => hfree l (h.loans l hl)⟩

theorem read_covered (h : Covers j p) {action : String}
    (hj : (c.read name action).run j = .ok none j') :
    ∃ p', (c.read name action).run p = .ok none p' ∧ Covers j' p' := by
  rw [run_read] at hj
  obtain ⟨hread, rfl⟩ : c.readViolation j name action = none ∧ j = j' := by simpa using hj
  exact ⟨p, by rw [run_read, readViolation_covered h hread], h⟩

theorem renew_sameRules (c : Site) (name : String) (tracks : Bool) (s : FlowState) :
    SameRules s (c.renew name tracks s) := by
  cases tracks <;> exact ⟨rfl, rfl, rfl⟩

theorem carryResources_sameRules (dest source : String) (moved : Bool) (s : FlowState) :
    SameRules s (carryResources dest source moved s) := by
  rw [carryResources]
  cases moved <;> cases s.resources[source]? <;> exact ⟨rfl, rfl, rfl⟩

theorem Writable.covered (h : Covers j p) (hw : c.Writable j name) : c.Writable p name where
  owned := h.owned hw.owned
  mutable := hw.mutable
  unlent l hl := hw.unlent l (h.loans l hl)

theorem write_covered (h : Covers j p) (hj : (c.write name).run j = .ok none j') :
    ∃ p', (c.write name).run p = .ok none p' ∧ Covers j' p' := by
  obtain ⟨hw, tracks, htracks, rfl⟩ := write_none_iff.mp hj
  exact ⟨_, write_none_iff.mpr ⟨hw.covered h, tracks, htracks, rfl⟩,
    h.congr (renew_sameRules c name tracks j) (renew_sameRules c name tracks p)⟩

theorem writeThrough_covered (h : Covers j p) (hj : (c.writeThrough name).run j = .ok none j') :
    ∃ p', (c.writeThrough name).run p = .ok none p' ∧ Covers j' p' := by
  rcases writeThrough_none_iff.mp hj with ⟨href, hexcl, hread, rfl⟩ | ⟨href, hwrite⟩
  · exact ⟨p, writeThrough_none_iff.mpr (Or.inl ⟨href, hexcl, readViolation_covered h hread, rfl⟩),
      h⟩
  · obtain ⟨p', hp, h'⟩ := write_covered h hwrite
    exact ⟨p', writeThrough_none_iff.mpr (Or.inr ⟨href, hp⟩), h'⟩

theorem moveOut_covered (h : Covers j p) (hj : (c.moveOut name).run j = .ok none j') :
    ∃ p', (c.moveOut name).run p = .ok none p' ∧ Covers j' p' ∧ j.stateOf name = .owned := by
  rcases moveOut_none_iff.mp hj with ⟨hdup, hread, rfl⟩ | ⟨hdup, hstate, hfree, rfl⟩
  · exact ⟨p, moveOut_none_iff.mpr (Or.inl ⟨hdup, readViolation_covered h hread, rfl⟩), h,
      (readViolation_eq_none.mp hread).1⟩
  · have hp :=
      moveOut_none_iff.mpr (Or.inr ⟨hdup, h.owned hstate, fun l hl => hfree l (h.loans l hl), rfl⟩)
    exact ⟨_, hp, h.setState name .moved, hstate⟩

theorem borrow_covered (h : Covers j p) {kind : LoanKind}
    (hj : (c.borrow name kind ref).run j = .ok none j') :
    ∃ p', (c.borrow name kind ref).run p = .ok none p' ∧ Covers j' p' := by
  obtain ⟨b, through, hb, hthrough, hcase⟩ := borrow_iff.mp hj
  rcases hcase with ⟨_, _, ⟨⟩, _⟩ | ⟨loan, hgranted, -, rfl⟩
  have hrun :=
    borrow_iff.mpr ⟨b, through, hb, hthrough, Or.inr ⟨loan, h.checkBorrow hgranted, rfl, rfl⟩⟩
  refine ⟨_, hrun, (((h.defineRef ref).addLoan loan c.span).addLoans ?_).setProvenance ref ?_⟩
  · cases through
    · exact fun _ hl => hl
    · exact h.retarget (some name) (some ref)
  · cases through
    · exact fun _ hl => hl
    · exact h.provenance name

theorem lend_covered (h : Covers j p) {kind : LoanKind} {mutable : Bool} {loan : Loan}
    (hj : (c.lend name kind mutable).run j = .ok (.ok loan) j') :
    ∃ p', (c.lend name kind mutable).run p = .ok (.ok loan) p' ∧ Covers j' p' := by
  obtain ⟨hgranted, rfl⟩ := lend_iff.mp hj
  exact ⟨_, lend_iff.mpr ⟨(h.checkBorrow hgranted.symm).symm, rfl⟩, h.addLoan loan c.span⟩

theorem given_covers (h : Covers j p) (name : String) (isRef tracks : Bool) :
    Covers (c.given name isRef tracks j) (c.given name isRef tracks p) := by
  have howned : ∀ s : FlowState, isRef = false →
      SameRules (s.setState name .owned) (c.given name isRef tracks s) := by
    intro s hr
    rw [given, hr]
    simp only [Bool.false_eq_true, ↓reduceIte]
    split
    · have hsame := renew_sameRules c name tracks s
      exact ⟨congrArg (·.insert name OwnershipState.owned) hsame.states, hsame.loans,
        hsame.provenance⟩
    · exact renew_sameRules c name tracks _
  cases isRef with
  | true => exact (h.defineRef name).setProvenance name fun _ hl => hl
  | false => exact (h.setState name .owned).congr (howned j rfl) (howned p rfl)

def Refuses (c : Site) (name : String) (v : Violation) (s : FlowState) : Prop :=
  (c.store name).run s = .ok (some v) s ∧ IsOverwrite name v

theorem binding_of_isRef {isRef : Bool} (h : c.isRef name = .ok isRef) :
    ∃ b, c.function.binding name = .ok b := by
  obtain ⟨b, hb, -⟩ := Except.bind_inv h
  exact ⟨b, hb⟩

theorem store_covered (h : Covers j p) (hj : (c.store name).run j = .ok none j') :
    (∃ p', (c.store name).run p = .ok none p' ∧ Covers j' p') ∨ ∃ v, c.Refuses name v p := by
  obtain ⟨hdrop, hwrite, isRef, tracks, href, htracks, rfl⟩ := store_none_iff.mp hj
  obtain ⟨b, hb⟩ := binding_of_isRef href
  by_cases hgood : p.stateOf name = .owned → c.Writable p name
  · left
    have hp := store_none_iff.mpr ⟨h.not_dropped hdrop, hgood, isRef, tracks, href, htracks, rfl⟩
    exact ⟨_, hp, given_covers h name isRef tracks⟩
  · right
    obtain ⟨howned, hbad⟩ := Classical.not_imp.mp hgood
    rcases refused_or_writable hb howned with hrefused | hw
    · obtain ⟨v, hv, hover⟩ := store_refused hb howned hrefused
      exact ⟨v, hv, hover⟩
    · exact absurd hw hbad

theorem carryLoans_covers (h : Covers j p) (dest source : String) (moved toRef : Bool) :
    Covers (carryLoans dest source moved toRef j) (carryLoans dest source moved toRef p) := by
  have hkept : Covers (if moved then j.killLoansHeldBy [source] else j)
      (if moved then p.killLoansHeldBy [source] else p) := by
    cases moved
    · exact h
    · exact h.keepLoans _
  rw [carryLoans, carryLoans]
  cases toRef
  · exact hkept
  · exact (hkept.addLoans (h.retarget (some source) (some dest))).setProvenance dest
      (h.provenance source)

theorem transfer_covered (h : Covers j p) {moved : Bool}
    (hj : (c.transfer dest source moved).run j = .ok () j') :
    ∃ p', (c.transfer dest source moved).run p = .ok () p' ∧ Covers j' p' := by
  rcases transfer_iff.mp hj with ⟨toRef, href, hdest, rfl⟩ | ⟨tracks, href, htracks, hcase⟩
  · exact ⟨_, transfer_iff.mpr (Or.inl ⟨toRef, href, hdest, rfl⟩),
      carryLoans_covers h dest source moved toRef⟩
  · rcases hcase with ⟨rfl, rfl⟩ | ⟨rfl, takes, htakes, rfl⟩
    · exact ⟨p, transfer_iff.mpr (Or.inr ⟨false, href, htracks, Or.inl ⟨rfl, rfl⟩⟩), h⟩
    · refine ⟨_, transfer_iff.mpr (Or.inr ⟨true, href, htracks, Or.inr ⟨rfl, takes, htakes, rfl⟩⟩),
        ?_⟩
      cases takes
      · exact h
      · exact h.congr (carryResources_sameRules dest source moved j)
          (carryResources_sameRules dest source moved p)

/-- How an operation that finds nothing wrong from a state ends from one that the state allows for:
with nothing wrong and still allowed for, or because the old value of its target may not be
overwritten. -/
def EndsCovered (c : Site) (target : Option String) (j' : FlowState) (vs : List Violation)
    (p' : FlowState) : Prop :=
  (vs = [] ∧ Covers j' p') ∨ ∃ d v u, target = some d ∧ vs = [v] ∧ c.Refuses d v u

theorem toList_append_toList_eq_nil {a b : Option Violation} (h : a.toList ++ b.toList = []) :
    a = none ∧ b = none := by
  obtain ⟨ha, hb⟩ := List.append_eq_nil_iff.mp h
  exact ⟨Option.toList_eq_nil_iff.mp ha, Option.toList_eq_nil_iff.mp hb⟩

theorem assign_none_covered (h : Covers j p) (hj : (c.assign dest none).run j = .ok [] j') :
    ∃ vs p', (c.assign dest none).run p = .ok vs p' ∧ c.EndsCovered (some dest) j' vs p' := by
  obtain ⟨refused, hgive, hvs⟩ := assign_none_iff.mp hj
  cases Option.toList_eq_nil_iff.mp hvs.symm
  rcases store_covered h hgive with ⟨p', hp, h'⟩ | ⟨v, hv, hover⟩
  · exact ⟨[], p', assign_none_iff.mpr ⟨none, hp, rfl⟩, Or.inl ⟨rfl, h'⟩⟩
  · exact ⟨[v], p, assign_none_iff.mpr ⟨some v, hv, rfl⟩, Or.inr ⟨dest, v, p, rfl, rfl, hv, hover⟩⟩

theorem assign_some_covered (h : Covers j p)
    (hj : (c.assign dest (some source)).run j = .ok [] j') :
    ∃ vs p', (c.assign dest (some source)).run p = .ok vs p' ∧
      c.EndsCovered (some dest) j' vs p' := by
  obtain ⟨dup, taken, u, refused, w, hdup, htake, hgive, hvs, hcarry⟩ := assign_some_iff.mp hj
  obtain ⟨rfl, rfl⟩ := toList_append_toList_eq_nil hvs.symm
  obtain ⟨q, hq, hcov, hstate⟩ := moveOut_covered h htake
  rcases store_covered hcov hgive with ⟨q', hq', hcov'⟩ | ⟨v, hv, hover⟩
  · rcases hcarry with ⟨-, hcarry⟩ | ⟨hno, -⟩
    · obtain ⟨p', hp', hcov''⟩ := transfer_covered hcov' hcarry
      refine ⟨[], p', assign_some_iff.mpr ⟨dup, none, q, none, q', hdup, hq, hq', rfl, ?_⟩,
        Or.inl ⟨rfl, hcov''⟩⟩
      exact Or.inl ⟨⟨rfl, h.owned hstate⟩, hp'⟩
    · exact absurd ⟨rfl, hstate⟩ hno
  · refine ⟨[v], q, assign_some_iff.mpr ⟨dup, none, q, some v, q, hdup, hq, hv, rfl, ?_⟩,
      Or.inr ⟨dest, v, q, rfl, rfl, hv, hover⟩⟩
    exact Or.inr ⟨(fun hgo => by cases hgo.1), rfl⟩

theorem copy_covered (h : Covers j p) (hj : (c.copy dest source).run j = .ok [] j') :
    ∃ vs p', (c.copy dest source).run p = .ok vs p' ∧ c.EndsCovered (some dest) j' vs p' := by
  obtain ⟨invalid, hinvalid, hj⟩ := copy_iff.mp hj
  obtain ⟨refused, w, hgive, hvs, hcopy⟩ := copyTyped_iff.mp hj
  obtain ⟨hfirst, hrefused⟩ := List.append_eq_nil_iff.mp hvs.symm
  obtain ⟨rfl, hread⟩ := List.append_eq_nil_iff.mp hfirst
  cases Option.toList_eq_nil_iff.mp hrefused
  have hread := Option.toList_eq_nil_iff.mp hread
  have hreadp := readViolation_covered h hread
  have hsource : w.stateOf source = .owned := by
    obtain ⟨-, -, isRef, tracks, -, -, rfl⟩ := store_none_iff.mp hgive
    rw [stateOf_given, (readViolation_eq_none.mp hread).1, ite_self]
  rcases store_covered h hgive with ⟨q, hq, hcov⟩ | ⟨v, hv, hover⟩
  · rcases hcopy with ⟨-, u, tracks, htransfer, htracks, rfl⟩ | ⟨hno, -⟩
    · obtain ⟨p', hp', hcov'⟩ := transfer_covered hcov htransfer
      refine ⟨[], c.renew dest tracks p',
        copy_iff.mpr ⟨[], hinvalid, copyTyped_iff.mpr ⟨none, q, hq, ?_, ?_⟩⟩, ?_⟩
      · rw [hreadp]
        rfl
      · exact Or.inl ⟨⟨rfl, hcov.owned hsource⟩, p', tracks, hp', htracks, rfl⟩
      · exact Or.inl ⟨rfl, hcov'.congr (renew_sameRules c dest tracks u)
          (renew_sameRules c dest tracks p')⟩
    · exact absurd ⟨rfl, hsource⟩ hno
  · refine ⟨[v], p, copy_iff.mpr ⟨[], hinvalid, copyTyped_iff.mpr ⟨some v, p, hv, ?_, ?_⟩⟩,
      Or.inr ⟨dest, v, p, rfl, rfl, hv, hover⟩⟩
    · rw [hreadp]
      rfl
    · exact Or.inr ⟨(fun hgo => by cases hgo.1), rfl⟩

theorem dropScope_covered (h : Covers j p) {scope : String}
    (hj : (c.dropScope scope).run j = .ok [] j') :
    ∃ p', (c.dropScope scope).run p = .ok [] p' ∧ Covers j' p' := by
  obtain ⟨hstay, rfl⟩ := dropScope_nil_iff.mp hj
  exact ⟨_, dropScope_nil_iff.mpr ⟨fun l hl => hstay l (h.loans l hl), rfl⟩,
    (h.keepLoans _).foldl_drop _⟩

end Site

namespace Checker
open FlowState
variable {k : Checker} {c : Site} {j j' p : FlowState}

theorem pass_covered (h : Covers j p) {m : Manner} {callee arg : String} {given passed : Passed}
    (hj : (m.pass c callee given arg).run j = .ok passed j') (hclean : passed.violations = []) :
    ∃ p', (m.pass c callee given arg).run p = .ok passed p' ∧ Covers j' p' := by
  have hblame : ∀ v, passed ≠ given.blame v := by
    rintro v rfl
    simp at hclean
  cases m with
  | value =>
    rcases passValue_iff.mp hj with ⟨v, -, hv⟩ | ⟨hmove, rfl⟩
    · exact absurd hv (hblame v)
    · obtain ⟨p', hp', hcov, -⟩ := Site.moveOut_covered h hmove
      exact ⟨p', passValue_iff.mpr (Or.inr ⟨hp', rfl⟩), hcov⟩
  | owner exclusive =>
    obtain ⟨b, hb, ⟨v, -, hv⟩ | ⟨loan, hlend, rfl⟩⟩ := passOwner_iff.mp hj
    · exact absurd hv (hblame v)
    · obtain ⟨p', hp', hcov⟩ := Site.lend_covered h hlend
      exact ⟨p', passOwner_iff.mpr ⟨b, hb, Or.inr ⟨loan, hp', rfl⟩⟩, hcov⟩
  | reference exclusive =>
    rcases passReference_iff.mp hj with ⟨v, -, hv, -⟩ | ⟨hread, writes, hwrites, hcase⟩
    · exact absurd hv (hblame v)
    · rcases hcase with ⟨-, -, hv, -⟩ | ⟨hmay, ⟨v, -, hv⟩ | ⟨loan, hlend, rfl⟩⟩
      · exact absurd hv (hblame _)
      · exact absurd hv (hblame v)
      · obtain ⟨p', hp', hcov⟩ := Site.lend_covered h hlend
        have hreadp := Site.readViolation_covered h hread
        refine ⟨p', passReference_iff.mpr (Or.inr ⟨hreadp, writes, hwrites, Or.inr ⟨hmay, ?_⟩⟩),
          hcov⟩
        exact Or.inr ⟨loan, hp', rfl⟩

theorem passAll_covered (h : Covers j p) {callee : String} (args : List (String × Param))
    {given passed : Passed} (hj : (k.passAll c callee args given).run j = .ok passed j')
    (hclean : passed.violations = []) :
    ∃ p', (k.passAll c callee args given).run p = .ok passed p' ∧ Covers j' p' := by
  induction args generalizing given j p with
  | nil =>
    cases hj
    exact ⟨p, rfl, h⟩
  | cons e args ih =>
    obtain ⟨m, q, u, hm, hpass, hrest⟩ := passAll_cons_iff.mp hj
    obtain ⟨ws, hws, -⟩ := passAll_follows args hrest
    have hq : q.violations = [] := (List.append_eq_nil_iff.mp (hws.symm.trans hclean)).1
    obtain ⟨w, hw, hcov⟩ := pass_covered h hpass hq
    obtain ⟨p', hp', hcov'⟩ := ih hcov hrest
    exact ⟨p', passAll_cons_iff.mpr ⟨m, q, w, hm, hw, hp'⟩, hcov'⟩

def InheritsMore (a b : Loans × Names) : Prop := (∀ l ∈ b.1, l ∈ a.1) ∧ ∀ lt ∈ b.2, lt ∈ a.2

theorem inherit_covered (h : Covers j p) {passed : Passed} {dest arg : String}
    {a a' b : Loans × Names} (hab : InheritsMore a b)
    (hj : inherit c j passed dest a arg = .ok a') :
    ∃ b', inherit c p passed dest b arg = .ok b' ∧ InheritsMore a' b' := by
  rw [inherit] at hj ⊢
  cases hlent : passed.lent[arg]? with
  | some loan =>
    rw [hlent] at hj
    cases hj
    refine ⟨_, rfl, fun l hl => ?_, hab.2⟩
    rcases Loans.mem_add.mp hl with hl | hl
    · exact Loans.mem_add.mpr (Or.inl hl)
    · exact Loans.mem_add.mpr (Or.inr (hab.1 l hl))
  | none =>
    rw [hlent] at hj
    obtain ⟨isRef, href, hj⟩ := Except.bind_inv hj
    simp only [Except.bind_of_ok href]
    cases isRef with
    | false =>
      cases hj
      exact ⟨b, rfl, hab⟩
    | true =>
      cases hj
      refine ⟨_, rfl, fun l hl => ?_, fun lt hlt => ?_⟩
      · rcases Loans.mem_join.mp hl with hl | hl
        · exact Loans.mem_join.mpr (Or.inl (hab.1 l hl))
        · exact Loans.mem_join.mpr (Or.inr (h.retarget (some arg) (some dest) l hl))
      · rcases ExtTreeSet.mem_union_iff.mp hlt with hlt | hlt
        · exact ExtTreeSet.mem_union_iff.mpr (Or.inl (hab.2 lt hlt))
        · exact ExtTreeSet.mem_union_iff.mpr (Or.inr (h.provenance arg lt hlt))

theorem inheritAll_covered (h : Covers j p) {sig : Signature} {call : Call} {passed : Passed}
    {dest : String} {a : Loans × Names} (hj : inheritAll c sig call passed dest j = .ok a) :
    ∃ b, inheritAll c sig call passed dest p = .ok b ∧ InheritsMore a b := by
  rw [inheritAll] at hj ⊢
  obtain ⟨isRef, href, hj⟩ := Except.bind_inv hj
  rw [Except.bind_of_ok href]
  cases isRef with
  | false =>
    cases hj
    exact ⟨_, rfl, fun _ hl => hl, fun _ hl => hl⟩
  | true =>
    obtain ⟨args, hargs, hj⟩ := Except.bind_inv hj
    have hstart : InheritsMore (∅, ∅) (∅, ∅) := ⟨fun _ hl => hl, fun _ hl => hl⟩
    have hstep : ∀ arg ∈ args, ∀ x y x', InheritsMore x y → inherit c j passed dest x arg = .ok x' →
        ∃ y', inherit c p passed dest y arg = .ok y' ∧ InheritsMore x' y' :=
      fun _ _ _ _ _ hxy hx => inherit_covered h hxy hx
    obtain ⟨b, hb, hab⟩ := Except.foldlM_related hstep hstart hj
    exact ⟨b, (Except.bind_of_ok hargs).trans hb, hab⟩

theorem receive_covered (h : Covers j p) {dest : String} {a b : Loans × Names}
    (hab : InheritsMore a b) (hj : (receive c dest a).run j = .ok [] j') :
    ∃ vs p', (receive c dest b).run p = .ok vs p' ∧ c.EndsCovered (some dest) j' vs p' := by
  obtain ⟨refused, w, isRef, hgive, href, hvs, rfl⟩ := receive_iff.mp hj
  cases Option.toList_eq_nil_iff.mp hvs.symm
  rcases Site.store_covered h hgive with ⟨q, hq, hcov⟩ | ⟨v, hv, hover⟩
  · refine ⟨[], _, receive_iff.mpr ⟨none, q, isRef, hq, href, rfl, rfl⟩, Or.inl ⟨rfl, ?_⟩⟩
    have howned : w.stateOf dest = .owned ∧ q.stateOf dest = .owned := by
      obtain ⟨-, -, r, tracks, -, -, rfl⟩ := Site.store_none_iff.mp hgive
      have hw : (c.given dest r tracks j).stateOf dest = .owned := by
        rw [Site.stateOf_given, if_pos rfl]
      exact ⟨hw, hcov.owned hw⟩
    cases isRef with
    | false => simpa using hcov
    | true =>
      simp only [howned, and_self, ↓reduceIte]
      exact (hcov.addLoans hab.1).setProvenance dest hab.2
  · exact ⟨[v], _, receive_iff.mpr ⟨some v, p, isRef, hv, href, rfl, rfl⟩,
      Or.inr ⟨dest, v, p, rfl, rfl, hv, hover⟩⟩

theorem applyCall_covered (h : Covers j p) {call : Call}
    (hj : (k.applyCall c call).run j = .ok [] j') :
    ∃ vs p', (k.applyCall c call).run p = .ok vs p' ∧ c.EndsCovered call.dest j' vs p' := by
  obtain ⟨sig, passed, u, hsig, hpass, hcase⟩ := applyCall_iff.mp hj
  rcases hcase with ⟨hdest, hvs, rfl⟩ | ⟨dest, inherited, ws, hdest, hinherit, hreceive, hvs⟩
  · obtain ⟨q, hq, hcov⟩ := passAll_covered h _ hpass hvs.symm
    have hrun := applyCall_iff.mpr ⟨sig, passed, q, hsig, hq, Or.inl ⟨hdest, hvs, rfl⟩⟩
    exact ⟨[], _, hrun, Or.inl ⟨rfl, hcov.keepLoans _⟩⟩
  · obtain ⟨hclean, rfl⟩ := List.append_eq_nil_iff.mp hvs.symm
    obtain ⟨q, hq, hcov⟩ := passAll_covered h _ hpass hclean
    obtain ⟨inherited', hinherit', hmore⟩ := inheritAll_covered hcov hinherit
    obtain ⟨vs, p', hp', hend⟩ := receive_covered (hcov.keepLoans _) hmore hreceive
    refine ⟨vs, p', applyCall_iff.mpr ⟨sig, passed, q, hsig, hq, Or.inr ?_⟩, hdest ▸ hend⟩
    exact ⟨dest, inherited', vs, hdest, hinherit', hp', by rw [hclean, List.nil_append]⟩

theorem toList_covered {x : Access (Option Violation)} {target : Option String}
    (hx : ∀ j', x.run j = .ok none j' → ∃ p', x.run p = .ok none p' ∧ Covers j' p')
    (hj : (do return (← x).toList : Access (List Violation)).run j = .ok [] j') :
    ∃ vs p', (do return (← x).toList : Access (List Violation)).run p = .ok vs p' ∧
      c.EndsCovered target j' vs p' := by
  obtain ⟨v, hv, hvs⟩ := run_toList_iff.mp hj
  cases Option.toList_eq_nil_iff.mp hvs.symm
  obtain ⟨p', hp', hcov⟩ := hx j' hv
  exact ⟨[], p', run_toList_iff.mpr ⟨none, hp', rfl⟩, Or.inl ⟨rfl, hcov⟩⟩

theorem applyOp_covered (h : Covers j p) {op : Op} (hj : (k.applyOp c op).run j = .ok [] j') :
    ∃ vs p', (k.applyOp c op).run p = .ok vs p' ∧ c.EndsCovered op.assigned? j' vs p' := by
  cases op with
  | declare binding =>
    cases hj
    exact ⟨[], _, rfl, Or.inl ⟨rfl, h.declare binding⟩⟩
  | init binding source =>
    cases source with
    | none => exact Site.assign_none_covered h hj
    | some source => exact Site.assign_some_covered h hj
  | move dest source => exact Site.assign_some_covered h hj
  | copy dest source => exact Site.copy_covered h hj
  | borrow binding kind ref => exact toList_covered (fun _ hb => Site.borrow_covered h hb) hj
  | use ref => exact toList_covered (fun _ hb => Site.read_covered h hb) hj
  | write target value =>
    cases value with
    | none => exact toList_covered (fun _ hb => Site.writeThrough_covered h hb) hj
    | some value =>
      obtain ⟨taken, u, refused, htake, hwrite, hvs⟩ := applyOp_write_some_iff.mp hj
      obtain ⟨rfl, rfl⟩ := Site.toList_append_toList_eq_nil hvs.symm
      obtain ⟨q, hq, hcov, -⟩ := Site.moveOut_covered h htake
      obtain ⟨p', hp', hcov'⟩ := Site.writeThrough_covered hcov hwrite
      exact ⟨[], p', applyOp_write_some_iff.mpr ⟨none, q, none, hq, hp', rfl⟩, Or.inl ⟨rfl, hcov'⟩⟩
  | call call => exact applyCall_covered h hj
  | endScope scope =>
    obtain ⟨p', hp', hcov⟩ := Site.dropScope_covered h hj
    exact ⟨[], p', hp', Or.inl ⟨rfl, hcov⟩⟩
  | unsupported name => cases hj

theorem keepsPromise_of_subset {lt lt' : Lifetime} (hsub : ∀ x ∈ lt, x ∈ lt')
    (h : KeepsPromise c lt') : KeepsPromise c lt := by
  obtain ⟨promised, hpromised, h⟩ := h
  refine ⟨promised, hpromised, fun required hreq => ?_⟩
  obtain ⟨order, horder, hsat⟩ := h required hreq
  exact ⟨order, horder, LifetimeOrder.satisfies_of_subset
    (LifetimeOrder.transitive_ofSignature horder) hsub hsat⟩

theorem applyReturn_covered (h : Covers j p) {value : String}
    (hj : (applyReturn c value).run j = .ok [] j') :
    ∃ p', (applyReturn c value).run p = .ok [] p' ∧ Covers j' p' := by
  rcases applyReturn_iff.mp hj with ⟨href, rfl, hcase⟩ | ⟨href, taken, htake, hvs⟩
  · rcases hcase with ⟨_, _, ⟨⟩⟩ | ⟨hread, hret⟩
    obtain ⟨howner, hpromise⟩ := returnReference_nil_iff.mp hret
    have hretp : returnReference c value p = .ok [] := returnReference_nil_iff.mpr
      ⟨fun l hl => howner l (h.loans l hl), keepsPromise_of_subset (h.provenance value) hpromise⟩
    exact ⟨p, applyReturn_iff.mpr
      (Or.inl ⟨href, rfl, Or.inr ⟨Site.readViolation_covered h hread, hretp⟩⟩), h⟩
  · cases Option.toList_eq_nil_iff.mp hvs.symm
    obtain ⟨p', hp', hcov, -⟩ := Site.moveOut_covered h htake
    exact ⟨p', applyReturn_iff.mpr (Or.inr ⟨href, none, hp', rfl⟩), hcov⟩

theorem applyTerminator_covered (h : Covers j p) {terminator : Option Terminator}
    (hj : (applyTerminator c terminator).run j = .ok [] j') :
    ∃ p', (applyTerminator c terminator).run p = .ok [] p' ∧ Covers j' p' := by
  cases terminator with
  | none => cases hj
  | some terminator =>
    cases terminator with
    | jump target =>
      cases hj
      exact ⟨p, rfl, h⟩
    | branch thenTarget elseTarget cond =>
      cases cond with
      | none =>
        cases hj
        exact ⟨p, rfl, h⟩
      | some cond =>
        obtain ⟨v, hread, hvs⟩ := run_toList_iff.mp hj
        cases Option.toList_eq_nil_iff.mp hvs.symm
        obtain ⟨p', hp', hcov⟩ := Site.read_covered h hread
        exact ⟨p', run_toList_iff.mpr ⟨none, hp', rfl⟩, hcov⟩
    | ret value =>
      cases value with
      | none =>
        cases hj
        exact ⟨p, rfl, h⟩
      | some value => exact applyReturn_covered h hj
    | unsupported name => cases hj

end Checker

end Ownership

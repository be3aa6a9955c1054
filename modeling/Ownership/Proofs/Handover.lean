import Ownership.Proofs.Exclusive

/-! # References that are handed over

A reference that is assigned or copied hands its loans and its provenance over to the destination.
The destination gives up what it held before it takes over; so a reference that is assigned to
itself has nothing left to take over, and comes out of it holding nothing.
-/
namespace Ownership
open Std

namespace Loans
variable {loans a b : Loans} {p : Loan → Bool} {l : Loan} {ref : Option String}

/-- A loan is kept with the place where its borrow is written. -/
theorem getElem?_keep : (loans.keep p)[l]? = if p l = true then loans[l]? else none := by
  rw [keep, ExtTreeMap.getElem?_filter']
  cases loans[l]? <;> simp [Option.filter]

theorem getElem?_join : (a.join b)[l]? = a[l]?.or b[l]? := by
  rw [join, ExtTreeMap.union_eq, ExtTreeMap.getElem?_union]

/-- Loans that are retargeted are all held by the new holder. -/
theorem getElem?_retarget_of_ne (h : l.ref ≠ ref) : (loans.retarget ref)[l]? = none := by
  apply ExtTreeMap.getElem?_eq_none
  rw [mem_retarget]
  rintro ⟨m, -, rfl⟩
  exact h (Loan.retarget_ref m ref)

end Loans

namespace FlowState
variable {s t : FlowState} {name ref x : String} {holder gone : Option String} {l : Loan}

theorem getElem?_loansHeldBy :
    (s.loansHeldBy holder)[l]? = if l.ref = holder then s.loans[l]? else none := by
  simp [loansHeldBy, Loans.getElem?_keep]

/-- What a holder holds is known from the loans that name it. -/
theorem loansHeldBy_congr (h : ∀ l : Loan, l.ref = holder → s.loans[l]? = t.loans[l]?) :
    s.loansHeldBy holder = t.loansHeldBy holder := by
  apply ExtTreeMap.ext_getElem?
  intro l
  rw [getElem?_loansHeldBy, getElem?_loansHeldBy]
  split
  · exact h l ‹_›
  · rfl

theorem loansHeldBy_eq_empty_iff : s.loansHeldBy holder = ∅ ↔ ∀ l : Loan, l.ref = holder →
    s.loans[l]? = none := by
  constructor
  · intro h l hl
    have hnone : (s.loansHeldBy holder)[l]? = none := by rw [h]; exact ExtTreeMap.getElem?_empty
    rwa [getElem?_loansHeldBy, if_pos hl] at hnone
  · intro h
    apply ExtTreeMap.ext_getElem?
    intro l
    rw [getElem?_loansHeldBy, ExtTreeMap.getElem?_empty]
    split
    · exact h l ‹_›
    · rfl

theorem getElem?_killLoansHeldBy :
    (s.killLoansHeldBy [gone]).loans[l]? = if l.ref = gone then none else s.loans[l]? := by
  rw [killLoansHeldBy, keepLoans, Loans.getElem?_keep]
  by_cases hl : l.ref = gone <;> simp [hl]

/-- A holder whose loans end holds nothing. -/
theorem loansHeldBy_killLoansHeldBy_self : (s.killLoansHeldBy [gone]).loansHeldBy gone = ∅ :=
  loansHeldBy_eq_empty_iff.mpr fun _ hl => getElem?_killLoansHeldBy.trans (if_pos hl)

theorem loansHeldBy_killLoansHeldBy_of_ne (hne : holder ≠ gone) :
    (s.killLoansHeldBy [gone]).loansHeldBy holder = s.loansHeldBy holder :=
  loansHeldBy_congr fun _ hl => getElem?_killLoansHeldBy.trans (if_neg (hl ▸ hne))

theorem loansHeldBy_addLoans_of_ne {loans : Loans} (hne : holder ≠ some ref) :
    (s.addLoans (loans.retarget (some ref))).loansHeldBy holder = s.loansHeldBy holder := by
  refine loansHeldBy_congr fun l hl => ?_
  rw [addLoans, Loans.getElem?_join, Loans.getElem?_retarget_of_ne (hl ▸ hne), Option.or_none]

/-- A holder without loans takes over what is retargeted to it. -/
theorem loansHeldBy_addLoans_self {loans : Loans} (hfree : s.loansHeldBy (some ref) = ∅) :
    (s.addLoans (loans.retarget (some ref))).loansHeldBy (some ref) =
      loans.retarget (some ref) := by
  apply ExtTreeMap.ext_getElem?
  intro l
  rw [getElem?_loansHeldBy, addLoans, Loans.getElem?_join]
  split
  · rename_i hl
    rw [loansHeldBy_eq_empty_iff.mp hfree l hl, Option.none_or]
  · rename_i hl
    exact (Loans.getElem?_retarget_of_ne hl).symm

theorem provenanceOf_setProvenance {lts : Names} :
    (s.setProvenance name lts).provenanceOf x = if name = x then lts else s.provenanceOf x := by
  simp [provenanceOf, setProvenance, ExtTreeMap.getD_insert]

theorem provenanceOf_forgetProvenance (hne : name ≠ x) :
    (s.forgetProvenance name).provenanceOf x = s.provenanceOf x := by
  simp [provenanceOf, forgetProvenance, ExtTreeMap.getD_erase, hne]

end FlowState

namespace Site
open FlowState
variable {c : Site} {s t u : FlowState} {dest source : String} {holder : Option String}
    {moved : Bool}

section Carried

/-- A reference that is moved from lets its loans go. -/
theorem loansHeldBy_kept :
    (if moved = true then s.killLoansHeldBy [some source] else s).loansHeldBy holder =
    if moved = true ∧ holder = some source then ∅ else s.loansHeldBy holder := by
  cases moved with
  | false => simp
  | true =>
    by_cases heq : holder = some source
    · rw [if_pos rfl, if_pos ⟨rfl, heq⟩, heq, loansHeldBy_killLoansHeldBy_self]
    · rw [if_pos rfl, if_neg fun h => heq h.2, loansHeldBy_killLoansHeldBy_of_ne heq]

theorem carryLoans_dest (hfree : s.loansHeldBy (some dest) = ∅) :
    (carryLoans dest source moved true s).loansHeldBy (some dest) =
      (s.loansHeldBy (some source)).retarget (some dest) := by
  refine loansHeldBy_addLoans_self ?_
  rw [loansHeldBy_kept, hfree, ite_self]

theorem carryLoans_source (hne : dest ≠ source) :
    (carryLoans dest source moved true s).loansHeldBy (some source) =
      if moved = true then ∅ else s.loansHeldBy (some source) := by
  refine (loansHeldBy_addLoans_of_ne fun h => hne (Option.some.inj h).symm).trans ?_
  simp only [loansHeldBy_kept, and_true]

theorem carryLoans_other (hdest : holder ≠ some dest) (hsource : holder ≠ some source) :
    (carryLoans dest source moved true s).loansHeldBy holder = s.loansHeldBy holder := by
  refine (loansHeldBy_addLoans_of_ne hdest).trans ?_
  rw [loansHeldBy_kept, if_neg fun h => hsource h.2]

theorem carryLoans_provenance :
    (carryLoans dest source moved true s).provenanceOf dest = s.provenanceOf source :=
  provenanceOf_setProvenance.trans (if_pos rfl)

end Carried

def cleared (dest : String) (s : FlowState) : FlowState := (s.defineRef dest).setProvenance dest ∅

theorem cleared_dest : (cleared dest s).loansHeldBy (some dest) = ∅ :=
  loansHeldBy_killLoansHeldBy_self

theorem cleared_other (hne : holder ≠ some dest) :
    (cleared dest s).loansHeldBy holder = s.loansHeldBy holder :=
  loansHeldBy_killLoansHeldBy_of_ne hne

theorem cleared_provenance :
    (cleared dest s).provenanceOf source = if dest = source then ∅ else s.provenanceOf source := by
  rw [cleared, provenanceOf_setProvenance]
  split
  · rfl
  · exact provenanceOf_forgetProvenance ‹_›

section Silent
variable (hdest : c.isRef dest = .ok true) (hsource : c.isRef source = .ok true)
include hdest

/-- A reference that gets a value is cleared. -/
theorem store_cleared (h : (c.store dest).run s = .ok none t) : t = cleared dest s := by
  obtain ⟨-, -, isRef, tracks, hr, -, rfl⟩ := store_none_iff.mp h
  cases hdest.symm.trans hr
  rfl

include hsource

theorem transfer_carried (h : (c.transfer dest source moved).run s = .ok () t) :
    t = carryLoans dest source moved true s := by
  rcases transfer_iff.mp h with ⟨toRef, -, hr, rfl⟩ | ⟨tracks, hr, -⟩
  · cases hdest.symm.trans hr
    rfl
  · cases hsource.symm.trans hr

theorem assign_carried (h : (c.assign dest (some source)).run s = .ok [] t) :
    ∃ dup u, c.isDuplicable source = .ok dup ∧ u.loans = s.loans ∧ u.provenance = s.provenance ∧
      t = carryLoans dest source (!dup) true (cleared dest u) := by
  obtain ⟨dup, taken, u, refused, w, hdup, htake, hgive, hnone, hcarry⟩ := assign_some_iff.mp h
  obtain ⟨htaken, hrefused⟩ := List.append_eq_nil_iff.mp hnone.symm
  cases Option.toList_eq_nil_iff.mp htaken
  cases Option.toList_eq_nil_iff.mp hrefused
  have htaken : s.stateOf source = .owned ∧ u.loans = s.loans ∧ u.provenance = s.provenance := by
    rcases moveOut_none_iff.mp htake with ⟨-, hread, rfl⟩ | ⟨-, howned, -, rfl⟩
    · exact ⟨(readViolation_eq_none.mp hread).1, rfl, rfl⟩
    · exact ⟨howned, rfl, rfl⟩
  obtain ⟨howned, hloans, hprovenance⟩ := htaken
  refine ⟨dup, u, hdup, hloans, hprovenance, ?_⟩
  rcases hcarry with ⟨-, hcarry⟩ | ⟨hgo, -⟩
  · rw [← store_cleared hdest hgive]
    exact transfer_carried hdest hsource hcarry
  · exact absurd ⟨rfl, howned⟩ hgo

theorem copy_carried (h : (c.copy dest source).run s = .ok [] t) :
    c.isDuplicable source = .ok true ∧ t = carryLoans dest source false true (cleared dest s) := by
  obtain ⟨invalid, hvalid, h⟩ := copy_iff.mp h
  obtain ⟨refused, w, hgive, hnone, hcarry⟩ := copyTyped_iff.mp h
  obtain ⟨hfirst, hrefused⟩ := List.append_eq_nil_iff.mp hnone.symm
  obtain ⟨rfl, hread⟩ := List.append_eq_nil_iff.mp hfirst
  cases Option.toList_eq_nil_iff.mp hrefused
  have howned := (readViolation_eq_none.mp (Option.toList_eq_nil_iff.mp hread)).1
  have hdup : c.isDuplicable source = .ok true := by
    rcases hvalid with ⟨hdup, -⟩ | ⟨-, b, type, -, -, hinvalid⟩
    · exact hdup
    · cases hinvalid
  refine ⟨hdup, ?_⟩
  have hgiven := store_cleared hdest hgive
  rcases hcarry with ⟨-, u, tracks, hcarry, htracks, rfl⟩ | ⟨hgo, -⟩
  · cases htracks.symm.trans (tracksResource_of_isRef hdest)
    rw [← hgiven]
    exact transfer_carried hdest hsource hcarry
  · refine absurd ⟨rfl, ?_⟩ hgo
    obtain ⟨-, -, isRef, tracks, -, -, rfl⟩ := store_none_iff.mp hgive
    rw [stateOf_given]
    split
    · rfl
    · exact howned

/-- However a reference is handed over: the destination is cleared before it takes over. -/
theorem handed_carried (h : (c.assign dest (some source)).run s = .ok [] t ∨
    (c.copy dest source).run s = .ok [] t) :
    ∃ dup u, c.isDuplicable source = .ok dup ∧ u.loans = s.loans ∧ u.provenance = s.provenance ∧
      t = carryLoans dest source (!dup) true (cleared dest u) := by
  rcases h with h | h
  · exact assign_carried hdest hsource h
  · obtain ⟨hdup, rfl⟩ := copy_carried hdest hsource h
    exact ⟨true, s, hdup, rfl, rfl, rfl⟩

end Silent

/-- A reference that is assigned or copied without a violation hands over all it has: the
destination then holds the loans of the source and nothing else, and has its provenance. A reference
that is moved keeps no loan and one that is copied keeps them all; what other references hold stays
theirs. If the two are one reference, it loses its loans and its provenance. -/
theorem reference_handed_over (hdest : c.isRef dest = .ok true)
    (hsource : c.isRef source = .ok true)
    (h : (c.assign dest (some source)).run s = .ok [] t ∨ (c.copy dest source).run s = .ok [] t) :
    (dest ≠ source →
      t.loansHeldBy (some dest) = (s.loansHeldBy (some source)).retarget (some dest) ∧
      t.provenanceOf dest = s.provenanceOf source ∧
      (c.isDuplicable source = .ok false → t.loansHeldBy (some source) = ∅) ∧
      (c.isDuplicable source = .ok true →
        t.loansHeldBy (some source) = s.loansHeldBy (some source))) ∧
    (dest = source → t.loansHeldBy (some dest) = ∅ ∧ t.provenanceOf dest = ∅) ∧
    ∀ holder, holder ≠ some dest → holder ≠ some source →
      t.loansHeldBy holder = s.loansHeldBy holder := by
  obtain ⟨dup, u, hdup, hloans, hprovenance, rfl⟩ := handed_carried hdest hsource h
  have hheld : ∀ holder, u.loansHeldBy holder = s.loansHeldBy holder := fun holder => by
    rw [loansHeldBy, hloans, loansHeldBy]
  have hfrom : ∀ x, u.provenanceOf x = s.provenanceOf x := fun x => by
    rw [provenanceOf, hprovenance, provenanceOf]
  refine ⟨fun hne => ?_, ?_, fun holder hd hs => ?_⟩
  · have hother : some source ≠ some dest := fun heq => hne (Option.some.inj heq).symm
    rw [carryLoans_dest cleared_dest, carryLoans_provenance, carryLoans_source hne,
      cleared_other hother, cleared_provenance, if_neg hne, hheld, hfrom]
    refine ⟨rfl, rfl, fun hmoved => ?_, fun hcopied => ?_⟩
    · cases hdup.symm.trans hmoved
      rfl
    · cases hdup.symm.trans hcopied
      rfl
  · rintro rfl
    rw [carryLoans_dest cleared_dest, carryLoans_provenance, cleared_dest,
      cleared_provenance, if_pos rfl]
    exact ⟨rfl, rfl⟩
  · rw [carryLoans_other hd hs, cleared_other hd, hheld]

end Site

def Access.silent (x : Access (List Violation)) (s : FlowState) : Option FlowState :=
  match x.run s with
  | .ok [] t => some t
  | _ => none

theorem Access.silent_iff {x : Access (List Violation)} {s t : FlowState} :
    x.silent s = some t ↔ x.run s = .ok [] t := by
  rw [silent]
  split <;> simp_all

namespace Function

def handedOn : Function :=
  ofParts "handedOn" [{ name := "x", type := 1, mutable := true },
      { name := "y", type := 1, mutable := true },
      { name := "p", type := 2 }, { name := "q", type := 2, mutable := true }]
    [{ label := "entry",
       body := [{ op := .init "x" none }, { op := .init "y" none },
         { op := .borrow "x" .exclusive "p" },
         { op := .borrow "y" .exclusive "q" }, { op := .init "q" (some "p") }],
       ending := some { terminator := .ret none } }]

/-- A reference is assigned to itself, and the number it lends is written before the reference is
used. -/
def selfAssigned : Function :=
  ofParts "selfAssigned" [{ name := "x", type := 1, mutable := true },
    { name := "r", type := 2, mutable := true }]
    [{ label := "entry",
       body := [{ op := .init "x" none }, { op := .borrow "x" .shared "r" },
         { op := .init "r" (some "r") },
         { op := .write "x" none }, { op := .use "r" }],
       ending := some { terminator := .ret none } }]

end Function

namespace Checker

/-- The loan on the first number goes over to the second reference, and the loan on the second
number ends. -/
theorem reference_handed_over_handedOn :
    ∃ (r : Regions) (c : Site) (s t : FlowState) (es : List Event),
    Regions.compute .handedOn .exclusive .lexical = .ok r ∧
    c = exclusive.site .handedOn r { label := "entry" } 4 .unknown ∧
    exclusive.Comes .handedOn r ["entry"] 4 s es ∧
    (c.assign "q" (some "p")).run s = .ok [] t ∧ (s.loansHeldBy (some "p")).isEmpty = false ∧
    (s.loansHeldBy (some "q")).isEmpty = false ∧
    t.loansHeldBy (some "q") = (s.loansHeldBy (some "p")).retarget (some "q") ∧
    t.provenanceOf "q" = s.provenanceOf "p" ∧ t.loansHeldBy (some "p") = ∅ := by
  have hrun : (do
      let r ← Regions.compute .handedOn .exclusive .lexical
      let run ← exclusive.followTo .handedOn r ["entry"] 4
      return ((run.1.loansHeldBy (some "p")).isEmpty = false ∧
        (run.1.loansHeldBy (some "q")).isEmpty = false ∧
        (((exclusive.site .handedOn r { label := "entry" } 4 .unknown).assign "q" (some "p")).silent
          run.1).isSome : Bool) : Except Fault Bool) = .ok true := by decide +kernel
  obtain ⟨r, hr, hrun⟩ := Except.bind_inv hrun
  obtain ⟨⟨s, es⟩, hfollow, hrun⟩ := Except.bind_inv hrun
  obtain ⟨hp, hq, hsilent⟩ := of_decide_eq_true (Except.ok.inj hrun)
  obtain ⟨t, ht⟩ := Option.isSome_iff_exists.mp hsilent
  have hassign := Access.silent_iff.mp ht
  obtain ⟨hover, -, -⟩ := Site.reference_handed_over rfl rfl (Or.inl hassign)
  obtain ⟨hheld, hfrom, hmoved, -⟩ := hover (by decide)
  exact ⟨r, _, s, t, es, hr, rfl, comes_of_followTo (.singleton rfl) hfollow rfl (by decide),
    hassign, hp, hq, hheld, hfrom, hmoved rfl⟩

/-- The reference that is assigned to itself loses its loan although it is used later: nothing is
found there, and nothing is reported about the function. -/
theorem selfAssigned_loses_loans :
    ∃ (r : Regions) (report : FunctionReport) (c : Site) (s t : FlowState) (es : List Event),
    WellFormed.checkFunction .selfAssigned basic.types
      (basic.signaturesFor .selfAssigned) = .ok () ∧
    Regions.compute .selfAssigned .basic .lastUse = .ok r ∧
    c = basic.site .selfAssigned r { label := "entry" } 2 .unknown ∧ c.isRef "r" = .ok true ∧
    basic.Comes .selfAssigned r ["entry"] 2 s es ∧ (c.assign "r" (some "r")).run s = .ok [] t ∧
    t.loansHeldBy (some "r") ≠ (s.loansHeldBy (some "r")).retarget (some "r") ∧
    r.isLiveAfter "r" "entry" 3 = true ∧
    basic.checkFunction .selfAssigned = .ok report ∧ report.diagnostics = [] := by
  have hrun : (do
      let r ← Regions.compute .selfAssigned .basic .lastUse
      let report ← basic.checkFunction .selfAssigned
      let run ← basic.followTo .selfAssigned r ["entry"] 2
      return (report.diagnostics = [] ∧ r.isLiveAfter "r" "entry" 3 ∧
        ((run.1.loansHeldBy (some "r")).retarget (some "r")).isEmpty = false ∧
        ((Site.assign (basic.site .selfAssigned r { label := "entry" } 2 .unknown) "r"
          (some "r")).silent run.1).any (fun t => (t.loansHeldBy (some "r")).isEmpty) : Bool) :
      Except Fault Bool) = .ok true := by decide +kernel
  obtain ⟨r, hr, hrun⟩ := Except.bind_inv hrun
  obtain ⟨report, hreport, hrun⟩ := Except.bind_inv hrun
  obtain ⟨⟨s, es⟩, hfollow, hrun⟩ := Except.bind_inv hrun
  obtain ⟨hnone, hlive, hheld, hsilent⟩ := of_decide_eq_true (Except.ok.inj hrun)
  obtain ⟨t, ht, hlost⟩ := (Option.any_eq_true _ _).mp hsilent
  have hcomes := comes_of_followTo (.singleton rfl) hfollow rfl (by decide)
  refine ⟨r, report, _, s, t, es, by decide, hr, rfl, rfl, hcomes, Access.silent_iff.mp ht,
    fun heq => ?_, hlive, hreport, hnone⟩
  rw [heq, hheld] at hlost
  cases hlost

end Checker

end Ownership

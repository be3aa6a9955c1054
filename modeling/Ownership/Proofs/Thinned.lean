import Ownership.Proofs.LoanSource

/-! # States without the loans of some holders

An operation reads the loans of a holder only if it uses the holder, and other loans only forbid. So
an operation that finds nothing wrong finds nothing wrong either if loans of holders that it does
not use are missing, and the results again differ in these loans alone; the loans of the reference
that it defines are all there.
-/
namespace Ownership
open Std

namespace FlowState
variable {keep keep' : Option String → Prop} {s s' : FlowState} {name : String}

/-- The second state is the first with the loans of some holders alone. -/
structure Thins (keep : Option String → Prop) (s s' : FlowState) : Prop where
  states : s'.states = s.states
  provenance : s'.provenance = s.provenance
  resources : s'.resources = s.resources
  loans : ∀ l, l ∈ s'.loans ↔ l ∈ s.loans ∧ keep l.ref

namespace Thins

theorem stateOf (h : Thins keep s s') (x : String) : s'.stateOf x = s.stateOf x :=
  stateOf_congr h.states x

theorem provenanceOf (h : Thins keep s s') (x : String) : s'.provenanceOf x = s.provenanceOf x := by
  rw [FlowState.provenanceOf, FlowState.provenanceOf, h.provenance]

theorem mem (h : Thins keep s s') {l : Loan} (hl : l ∈ s'.loans) : l ∈ s.loans :=
  ((h.loans l).mp hl).1

theorem congr (h : Thins keep s s') (hkeep : ∀ holder, keep holder ↔ keep' holder) :
    Thins keep' s s' :=
  { h with loans := fun l => by rw [h.loans, hkeep] }

theorem setState (h : Thins keep s s') (name : String) (state : OwnershipState) :
    Thins keep (s.setState name state) (s'.setState name state) :=
  { h with states := congrArg (·.insert name state) h.states }

theorem setProvenance (h : Thins keep s s') (name : String) {lts lts' : Names} (hlts : lts' = lts) :
    Thins keep (s.setProvenance name lts) (s'.setProvenance name lts') :=
  { h with provenance := hlts ▸ congrArg (·.insert name lts') h.provenance }

theorem forgetProvenance (h : Thins keep s s') (name : String) :
    Thins keep (s.forgetProvenance name) (s'.forgetProvenance name) :=
  { h with provenance := congrArg (·.erase name) h.provenance }

theorem setResources (h : Thins keep s s') (name : String) (held : Resources) :
    Thins keep (s.setResources name held) (s'.setResources name held) :=
  { h with resources := congrArg (·.insert name held) h.resources }

theorem forgetResources (h : Thins keep s s') (name : String) :
    Thins keep (s.forgetResources name) (s'.forgetResources name) :=
  { h with resources := congrArg (·.erase name) h.resources }

theorem mint (h : Thins keep s s') (name : String) (origin : Location) (limit : Int) :
    Thins keep (s.mint name origin limit) (s'.mint name origin limit) :=
  { h with resources := by rw [FlowState.mint, FlowState.mint, h.resources] }

theorem keepLoans (h : Thins keep s s') (p : Loan → Bool) :
    Thins keep (s.keepLoans p) (s'.keepLoans p) :=
  { h with loans := fun l => by rw [mem_keepLoans, mem_keepLoans, h.loans, and_right_comm] }

theorem addLoan (h : Thins keep s s') {loan : Loan} (hloan : keep loan.ref) (span : Span) :
    Thins keep (s.addLoan loan span) (s'.addLoan loan span) where
  states := h.states
  provenance := h.provenance
  resources := h.resources
  loans l := by
    rw [mem_addLoan, mem_addLoan, h.loans]
    constructor
    · rintro (rfl | ⟨hl, hkeep⟩)
      · exact ⟨Or.inl rfl, hloan⟩
      · exact ⟨Or.inr hl, hkeep⟩
    · rintro ⟨rfl | hl, hkeep⟩
      · exact Or.inl rfl
      · exact Or.inr ⟨hl, hkeep⟩

theorem addLoans (h : Thins keep s s') {more more' : Loans} (hmore : ∀ l, l ∈ more' ↔ l ∈ more)
    (hkeep : ∀ l ∈ more, keep l.ref) : Thins keep (s.addLoans more) (s'.addLoans more') where
  states := h.states
  provenance := h.provenance
  resources := h.resources
  loans l := by
    rw [mem_addLoans, mem_addLoans, h.loans, hmore, or_and_right, and_iff_left_of_imp (hkeep l)]

/-- The loans that a kept holder gives on are the same. -/
theorem mem_retarget (h : Thins keep s s') {holder : Option String} (hkeep : keep holder)
    (ref : Option String) (l : Loan) :
    l ∈ (s'.loansHeldBy holder).retarget ref ↔ l ∈ (s.loansHeldBy holder).retarget ref := by
  have hheld : ∀ m, m ∈ s'.loansHeldBy holder ↔ m ∈ s.loansHeldBy holder := by
    intro m
    rw [mem_loansHeldBy, mem_loansHeldBy, h.loans, and_assoc]
    refine and_congr_right fun _ => and_iff_right_of_imp ?_
    rintro rfl
    exact hkeep
  simp only [Loans.mem_retarget, hheld]

/-- Where a holder has given its loans up it is kept as well. -/
theorem killLoansHeldBy (h : Thins keep s s') {holder : Option String}
    (hkeep : ∀ x, x ≠ holder → (keep x ↔ keep' x)) :
    Thins keep' (s.killLoansHeldBy [holder]) (s'.killLoansHeldBy [holder]) where
  states := h.states
  provenance := h.provenance
  resources := h.resources
  loans l := by
    rw [mem_killLoansHeldBy, mem_killLoansHeldBy, h.loans, and_right_comm]
    exact and_congr_right fun hl => hkeep l.ref hl.2

theorem foldl_drop (h : Thins keep s s') (names : List String) :
    Thins keep (names.foldl .drop s) (names.foldl .drop s') := by
  induction names generalizing s s' with
  | nil => exact h
  | cons name names ih =>
    exact ih (((h.setState name .dropped).forgetProvenance name).forgetResources name)

theorem checkBorrow (h : Thins keep s s') {r : BorrowRequest}
    {nextUse nextUse' : String → Option UseSite} {loan : Loan}
    (hs : s.checkBorrow r nextUse = .ok loan) : s'.checkBorrow r nextUse' = .ok loan := by
  obtain ⟨hstate, hmut, hfree, hloan⟩ := checkBorrow_ok_iff.mp hs
  exact checkBorrow_ok_iff.mpr
    ⟨(h.stateOf _).trans hstate, hmut, fun l hl => hfree l (h.mem hl), hloan⟩

/-- Loans end in both states, in the second one those of more holders. -/
theorem endLoans (h : Thins keep s s') {p p' : Option String → Bool} (hp : ∀ x, p x = true)
    (hp' : ∀ x, p' x = true → keep x) :
    Thins (fun x => p' x = true) (s.keepLoans fun l => p l.ref)
      (s'.keepLoans fun l => p' l.ref) where
  states := h.states
  provenance := h.provenance
  resources := h.resources
  loans l := by
    rw [mem_keepLoans, mem_keepLoans, h.loans, and_iff_left (hp l.ref), and_assoc,
      and_iff_right_of_imp (hp' l.ref)]

end Thins

end FlowState

namespace Site
open FlowState
variable {c : Site} {keep : Option String → Prop} {s s' t : FlowState}
    {name dest source ref : String}

def within (c : Site) (regions : Option Regions) : Site := { c with regions }

/-- What is kept once a binding is defined anew: if it is a reference, its loans too. -/
def AlsoKeeps (c : Site) (keep : Option String → Prop) (d : String)
    (holder : Option String) : Prop :=
  keep holder ∨ (c.isRef d = .ok true ∧ holder = some d)

theorem alsoKeeps_of_ne {d : String} {holder : Option String} (hne : holder ≠ some d) :
    keep holder ↔ c.AlsoKeeps keep d holder :=
  (or_iff_left fun h => hne h.2).symm

variable (regions : Option Regions)

theorem readViolation_thinned (h : Thins keep s s') {action : String}
    (hs : c.readViolation s name action = none) :
    (c.within regions).readViolation s' name action = none := by
  obtain ⟨hstate, hfree⟩ := readViolation_eq_none.mp hs
  exact readViolation_eq_none.mpr ⟨(h.stateOf name).trans hstate, fun l hl => hfree l (h.mem hl)⟩

theorem renew_thins (h : Thins keep s s') (name : String) (tracks : Bool) :
    Thins keep (c.renew name tracks s) ((c.within regions).renew name tracks s') := by
  cases tracks
  · exact h
  · exact h.mint name _ _

theorem Writable.thinned (h : Thins keep s s') (hw : c.Writable s name) :
    (c.within regions).Writable s' name where
  owned := (h.stateOf name).trans hw.owned
  mutable := hw.mutable
  unlent l hl := hw.unlent l (h.mem hl)

theorem writeThrough_thinned (h : Thins keep s s') (hs : (c.writeThrough name).run s = .ok none t) :
    ∃ t', ((c.within regions).writeThrough name).run s' = .ok none t' ∧ Thins keep t t' := by
  rcases writeThrough_none_iff.mp hs with ⟨href, hexcl, hread, rfl⟩ | ⟨href, hwrite⟩
  · exact ⟨s', writeThrough_none_iff.mpr
      (Or.inl ⟨href, hexcl, readViolation_thinned regions h hread, rfl⟩), h⟩
  · obtain ⟨hw, tracks, htracks, rfl⟩ := write_none_iff.mp hwrite
    have hrun := write_none_iff.mpr ⟨hw.thinned regions h, tracks, htracks, rfl⟩
    exact ⟨_, writeThrough_none_iff.mpr (Or.inr ⟨href, hrun⟩), renew_thins regions h name tracks⟩

theorem moveOut_thinned (h : Thins keep s s') (hs : (c.moveOut name).run s = .ok none t) :
    ∃ t', ((c.within regions).moveOut name).run s' = .ok none t' ∧ Thins keep t t' := by
  rcases moveOut_none_iff.mp hs with ⟨hdup, hread, rfl⟩ | ⟨hdup, hstate, hfree, rfl⟩
  · exact ⟨s', moveOut_none_iff.mpr (Or.inl ⟨hdup, readViolation_thinned regions h hread, rfl⟩), h⟩
  · have howned := (h.stateOf name).trans hstate
    exact ⟨_, moveOut_none_iff.mpr (Or.inr ⟨hdup, howned, fun l hl => hfree l (h.mem hl), rfl⟩),
      h.setState name .moved⟩

theorem lend_thinned (h : Thins keep s s') (hnone : keep none) {kind : LoanKind} {mutable : Bool}
    {loan : Loan} (hs : (c.lend name kind mutable).run s = .ok (.ok loan) t) :
    ∃ t', ((c.within regions).lend name kind mutable).run s' = .ok (.ok loan) t' ∧
      Thins keep t t' := by
  obtain ⟨hgranted, rfl⟩ := lend_ok_iff.mp hs
  have href : loan.ref = none := congrArg Loan.ref (granted_lend hgranted).1
  exact ⟨_, lend_ok_iff.mpr ⟨h.checkBorrow hgranted, rfl⟩, h.addLoan (href ▸ hnone) c.span⟩

theorem defineRef_thins (h : Thins keep s s') (d : String) :
    Thins (c.AlsoKeeps keep d) (s.defineRef d) (s'.defineRef d) :=
  ((h.killLoansHeldBy fun _ hne => alsoKeeps_of_ne hne).setState d .owned).forgetProvenance d

theorem borrow_thinned (h : Thins keep s s') (hname : c.isRef name = .ok true → keep (some name))
    (href : c.isRef ref = .ok true) {kind : LoanKind}
    (hs : (c.borrow name kind ref).run s = .ok none t) :
    ∃ t', ((c.within regions).borrow name kind ref).run s' = .ok none t' ∧
      Thins (c.AlsoKeeps keep ref) t t' := by
  obtain ⟨b, through, loan, hb, hthrough, hgranted, rfl⟩ := borrow_none_iff.mp hs
  have hnew : c.AlsoKeeps keep ref (some ref) := Or.inr ⟨href, rfl⟩
  have hloan : loan.ref = some ref := congrArg Loan.ref (granted_borrow hgranted).1
  have hdefined := (defineRef_thins h ref).addLoan (hloan ▸ hnew) c.span
  refine ⟨_, borrow_none_iff.mpr ⟨b, through, loan, hb, hthrough, h.checkBorrow hgranted, rfl⟩, ?_⟩
  cases through with
  | false => exact (hdefined.addLoans (fun _ => Iff.rfl) (by simp)).setProvenance ref rfl
  | true =>
    refine (hdefined.addLoans (h.mem_retarget (hname hthrough) (some ref)) fun l hl =>
      ?_).setProvenance ref
        (h.provenanceOf name)
    obtain ⟨m, -, rfl⟩ := Loans.mem_retarget.mp hl
    exact hnew

theorem store_thinned (h : Thins keep s s') (hs : (c.store name).run s = .ok none t) :
    ∃ t', (Site.store (c.within regions) name).run s' = .ok none t' ∧
      Thins (c.AlsoKeeps keep name) t t' := by
  obtain ⟨hdrop, hwrite, isRef, tracks, href, htracks, rfl⟩ := store_none_iff.mp hs
  have hgood : s'.stateOf name = .owned → (c.within regions).Writable s' name := fun howned =>
    (hwrite ((h.stateOf name).symm.trans howned)).thinned regions h
  refine ⟨_, store_none_iff.mpr ⟨h.stateOf name ▸ hdrop, hgood, isRef, tracks, href, htracks, rfl⟩,
    ?_⟩
  cases isRef with
  | true => exact (defineRef_thins h name).setProvenance name rfl
  | false =>
    have hsame : ∀ holder, keep holder ↔ c.AlsoKeeps keep name holder := fun holder =>
      (or_iff_left fun hnew => by rw [href] at hnew; cases hnew.1).symm
    refine Thins.congr ?_ hsame
    simp only [given, Bool.false_eq_true, ↓reduceIte, h.stateOf name]
    split
    · exact (renew_thins regions h name tracks).setState name .owned
    · exact renew_thins regions (h.setState name .owned) name tracks

theorem carryResources_thins (h : Thins keep s s') (dest source : String) (moved : Bool) :
    Thins keep (carryResources dest source moved s) (carryResources dest source moved s') := by
  have hkept : Thins keep (if moved then s.forgetResources source else s)
      (if moved then s'.forgetResources source else s') := by
    cases moved
    · exact h
    · exact h.forgetResources source
  rw [carryResources, carryResources, h.resources]
  cases s.resources[source]? with
  | none => exact hkept
  | some held => exact hkept.setResources dest held

theorem transfer_thinned (h : Thins keep s s')
    (hsource : c.isRef source = .ok true → keep (some source))
    (hdest : c.isRef dest = .ok true → keep (some dest)) {moved : Bool}
    (hs : (c.transfer dest source moved).run s = .ok () t) :
    ∃ t', ((c.within regions).transfer dest source moved).run s' = .ok () t' ∧ Thins keep t t' := by
  rcases transfer_iff.mp hs with ⟨toRef, href, htoRef, rfl⟩ | ⟨tracks, href, htracks, hcase⟩
  · refine ⟨_, transfer_iff.mpr (Or.inl ⟨toRef, href, htoRef, rfl⟩), ?_⟩
    have hkept : Thins keep (if moved then s.killLoansHeldBy [source] else s)
        (if moved then s'.killLoansHeldBy [source] else s') := by
      cases moved
      · exact h
      · exact h.keepLoans _
    rw [carryLoans, carryLoans]
    cases toRef with
    | false => exact hkept
    | true =>
      refine (hkept.addLoans (h.mem_retarget (hsource href) (some dest)) fun l hl =>
        ?_).setProvenance dest
          (h.provenanceOf source)
      obtain ⟨m, -, rfl⟩ := Loans.mem_retarget.mp hl
      exact hdest htoRef
  · rcases hcase with ⟨rfl, rfl⟩ | ⟨rfl, takes, htakes, rfl⟩
    · exact ⟨s', transfer_iff.mpr (Or.inr ⟨false, href, htracks, Or.inl ⟨rfl, rfl⟩⟩), h⟩
    · refine ⟨_, transfer_iff.mpr (Or.inr ⟨true, href, htracks, Or.inr ⟨rfl, takes, htakes, rfl⟩⟩),
        ?_⟩
      cases takes with
      | false => exact h
      | true => exact carryResources_thins h dest source moved

theorem assigns_thinned (h : Thins keep s s')
    (hsource : c.isRef source = .ok true → keep (some source)) (hs : c.Assigns dest source s t) :
    ∃ t', (c.within regions).Assigns dest source s' t' ∧ Thins (c.AlsoKeeps keep dest) t t' := by
  obtain ⟨dup, u, w, hdup, htake, hgive, hcarry⟩ := hs
  obtain ⟨u', htake', hu⟩ := moveOut_thinned regions h htake
  obtain ⟨w', hgive', hw⟩ := store_thinned regions hu hgive
  obtain ⟨t', hcarry', ht⟩ := transfer_thinned regions hw (fun href => Or.inl (hsource href))
    (fun href => Or.inr ⟨href, rfl⟩) hcarry
  exact ⟨t', ⟨dup, u', w', hdup, htake', hgive', hcarry'⟩, ht⟩

theorem copies_thinned (h : Thins keep s s')
    (hsource : c.isRef source = .ok true → keep (some source)) (hs : c.Copies dest source s t) :
    ∃ t', (c.within regions).Copies dest source s' t' ∧ Thins (c.AlsoKeeps keep dest) t t' := by
  obtain ⟨hdup, hread, w, u, tracks, hgive, hcarry, htracks, rfl⟩ := hs
  obtain ⟨w', hgive', hw⟩ := store_thinned regions h hgive
  obtain ⟨u', hcarry', hu⟩ := transfer_thinned regions hw (fun href => Or.inl (hsource href))
    (fun href => Or.inr ⟨href, rfl⟩) hcarry
  have hread' := readViolation_thinned regions h hread
  exact ⟨_, ⟨hdup, hread', w', u', tracks, hgive', hcarry', htracks, rfl⟩,
    renew_thins regions hu dest tracks⟩

theorem dropScope_thinned (h : Thins keep s s')
    (hlive : ∀ x, (c.within regions).isLiveAfter x = c.isLiveAfter x) {scope : String}
    (hs : (c.dropScope scope).run s = .ok [] t) :
    ∃ t', ((c.within regions).dropScope scope).run s' = .ok [] t' ∧ Thins keep t t' := by
  obtain ⟨hstay, rfl⟩ := dropScope_nil_iff.mp hs
  refine ⟨_, dropScope_nil_iff.mpr ⟨fun l hl hdangles => hstay l (h.mem hl) ?_, rfl⟩,
    (h.keepLoans _).foldl_drop _⟩
  obtain ⟨hplace, ref, href, hgone, hafter⟩ := hdangles
  exact ⟨hplace, ref, href, hgone, (hlive ref).symm.trans hafter⟩

end Site

namespace Checker
open FlowState
variable {k : Checker} {c : Site} {keep : Option String → Prop} {s s' t : FlowState} {p q : Passed}
    {callee : String}
variable (regions : Option Regions)

theorem grants_thinned (h : Thins keep s s') (hnone : keep none) {m : Manner} {arg : String}
    (hs : m.Grants c p arg s q t) :
    ∃ t', m.Grants (c.within regions) p arg s' q t' ∧ Thins keep t t' := by
  cases m with
  | value =>
    obtain ⟨hmove, rfl⟩ := hs
    obtain ⟨t', hmove', ht⟩ := Site.moveOut_thinned regions h hmove
    exact ⟨t', ⟨hmove', rfl⟩, ht⟩
  | owner exclusive =>
    obtain ⟨b, loan, hb, hlend, rfl⟩ := hs
    obtain ⟨t', hlend', ht⟩ := Site.lend_thinned regions h hnone hlend
    exact ⟨t', ⟨b, loan, hb, hlend', rfl⟩, ht⟩
  | reference exclusive =>
    obtain ⟨hread, hwrites, loan, hlend, rfl⟩ := hs
    obtain ⟨t', hlend', ht⟩ := Site.lend_thinned regions h hnone hlend
    exact ⟨t', ⟨Site.readViolation_thinned regions h hread, hwrites, loan, hlend', rfl⟩, ht⟩

theorem passesAll_thinned (h : Thins keep s s') (hnone : keep none) {args : List (String × Param)}
    (hs : k.PassesAll c callee args p s q t) :
    ∃ t', k.PassesAll (c.within regions) callee args p s' q t' ∧ Thins keep t t' := by
  induction args generalizing p s s' with
  | nil =>
    obtain ⟨hclean, rfl, rfl⟩ := passesAll_nil_iff.mp hs
    exact ⟨s', passesAll_nil_iff.mpr ⟨hclean, rfl, rfl⟩, h⟩
  | cons e args ih =>
    obtain ⟨hclean, m, p', u, hm, hgrants, hrest⟩ := passesAll_cons_iff.mp hs
    obtain ⟨u', hgrants', hu⟩ := grants_thinned regions h hnone hgrants
    obtain ⟨t', hrest', ht⟩ := ih hu hrest
    exact ⟨t', passesAll_cons_iff.mpr ⟨hclean, m, p', u', hm, hgrants', hrest'⟩, ht⟩

def InheritsSame (a b : Loans × Names) : Prop := (∀ l, l ∈ b.1 ↔ l ∈ a.1) ∧ b.2 = a.2

theorem inherit_thinned (h : Thins keep s s') {dest arg : String}
    (harg : c.isRef arg = .ok true → keep (some arg)) {a a' b : Loans × Names}
    (hab : InheritsSame a b) (hs : inherit c s p dest a arg = .ok a') :
    ∃ b', inherit (c.within regions) s' p dest b arg = .ok b' ∧ InheritsSame a' b' := by
  rw [inherit] at hs ⊢
  cases hlent : p.lent[arg]? with
  | some loan =>
    rw [hlent] at hs
    cases hs
    refine ⟨_, rfl, fun l => ?_, hab.2⟩
    rw [Loans.mem_add, Loans.mem_add, hab.1]
  | none =>
    rw [hlent] at hs
    obtain ⟨isRef, href, hs⟩ := Except.bind_inv hs
    have href' : (c.within regions).isRef arg = .ok isRef := href
    simp only [Except.bind_of_ok href']
    cases isRef with
    | false =>
      cases hs
      exact ⟨b, rfl, hab⟩
    | true =>
      cases hs
      refine ⟨_, rfl, fun l => ?_, ?_⟩
      · rw [Loans.mem_join, Loans.mem_join, hab.1, h.mem_retarget (harg href)]
      · rw [hab.2, h.provenanceOf]

theorem inheritAll_thinned (h : Thins keep s s') {sig : Signature} {call : Call} {dest : String}
    (hargs : ∀ args, sig.lenders c.types call = .ok args → ∀ arg ∈ args, c.isRef arg = .ok true →
      keep (some arg))
    {a : Loans × Names} (hs : inheritAll c sig call p dest s = .ok a) :
    ∃ b, inheritAll (c.within regions) sig call p dest s' = .ok b ∧ InheritsSame a b := by
  rw [inheritAll] at hs ⊢
  obtain ⟨isRef, href, hs⟩ := Except.bind_inv hs
  have href' : (c.within regions).isRef dest = .ok isRef := href
  rw [Except.bind_of_ok href']
  cases isRef with
  | false =>
    cases hs
    exact ⟨_, rfl, fun _ => Iff.rfl, rfl⟩
  | true =>
    obtain ⟨args, hlenders, hs⟩ := Except.bind_inv hs
    have hstart : InheritsSame (∅, ∅) (∅, ∅) := ⟨fun _ => Iff.rfl, rfl⟩
    have hstep : ∀ arg ∈ args, ∀ x y x', InheritsSame x y → inherit c s p dest x arg = .ok x' →
        ∃ y', inherit (c.within regions) s' p dest y arg = .ok y' ∧ InheritsSame x' y' :=
      fun arg harg _ _ _ hxy hx => inherit_thinned regions h (hargs args hlenders arg harg) hxy hx
    obtain ⟨b, hb, hab⟩ := Except.foldlM_related hstep hstart hs
    exact ⟨b, (Except.bind_of_ok hlenders).trans hb, hab⟩

def KeepsAfter (c : Site) (op : Op) (keep : Option String → Prop) (holder : Option String) : Prop :=
  keep holder ∨ ∃ d ∈ op.defs, c.isRef d = .ok true ∧ holder = some d

section
variable {op : Op}

theorem keepsAfter_of_none (hdefs : op.defs = []) (holder : Option String) :
    keep holder ↔ KeepsAfter c op keep holder := by
  simp [KeepsAfter, hdefs]

theorem keepsAfter_of_some {d : String} (hdefs : op.defs = [d]) (holder : Option String) :
    c.AlsoKeeps keep d holder ↔ KeepsAfter c op keep holder := by
  simp [KeepsAfter, Site.AlsoKeeps, hdefs]

theorem calls_thinned (h : Thins keep s s') (hnone : keep none) {call : Call}
    (hfit : (Op.call call).Fits c.function c.types (k.signaturesFor c.function))
    (hargs : ∀ x ∈ call.args, c.isRef x = .ok true → keep (some x)) (hs : k.Calls c call s t) :
    ∃ t', k.Calls (c.within regions) call s' t' ∧ Thins (KeepsAfter c (.call call) keep) t t' := by
  obtain ⟨sig, passed, u, hsig, hpass, hcase⟩ := hs
  obtain ⟨u', hpass', hu⟩ := passesAll_thinned regions h hnone hpass
  have hended : Thins keep (u.removeLoans passed.loans) (u'.removeLoans passed.loans) :=
    hu.keepLoans _
  rcases hcase with ⟨hdest, rfl⟩ | ⟨dest, inherited, w, isRef, hdest, hinherit, hgive, href, rfl⟩
  · refine ⟨_, ⟨sig, passed, u', hsig, hpass', Or.inl ⟨hdest, rfl⟩⟩,
      hended.congr (keepsAfter_of_none ?_)⟩
    simp [Op.defs, Op.defined?, hdest]
  · have hlenders : ∀ args, sig.lenders c.types call = .ok args →
        ∀ arg ∈ args, c.isRef arg = .ok true → keep (some arg) := by
      obtain ⟨_, _, -, hbound⟩ := hfit.callee call rfl
      exact fun args h arg harg => hargs arg (Signature.mem_args_of_lenders hbound h arg harg)
    obtain ⟨inherited', hinherit', hsame⟩ := inheritAll_thinned regions hu hlenders hinherit
    obtain ⟨w', hgive', hw⟩ := Site.store_thinned regions hended hgive
    refine ⟨_, ⟨sig, passed, u', hsig, hpass',
      Or.inr ⟨dest, inherited', w', isRef, hdest, hinherit', hgive', href, rfl⟩⟩, ?_⟩
    have hdefs : (Op.call call).defs = [dest] := by simp [Op.defs, Op.defined?, hdest]
    refine Thins.congr ?_ (keepsAfter_of_some hdefs)
    cases isRef with
    | false => exact hw
    | true =>
      refine (hw.addLoans hsame.1 fun l hl => ?_).setProvenance dest hsame.2
      obtain ⟨-, args, -, arg, -, hinherits⟩ := (mem_inheritAll hinherit).mp hl
      have hholder : l.ref = some dest := by
        rcases hinherits with ⟨loan, -, rfl⟩ | ⟨-, -, m, -, -, rfl⟩ <;> rfl
      exact Or.inr ⟨href, hholder⟩

/-- An operation that finds nothing wrong finds nothing wrong without the loans of holders that it
does not use, if the same references are live behind it. -/
theorem performs_thinned (h : Thins keep s s') (hnone : keep none)
    (hlive : ∀ x, (c.within regions).isLiveAfter x = c.isLiveAfter x)
    (hfit : op.Fits c.function c.types (k.signaturesFor c.function))
    (huses : ∀ x ∈ op.uses, c.isRef x = .ok true → keep (some x)) (hs : k.Performs c s t op) :
    ∃ t', k.Performs (c.within regions) s' t' op ∧ Thins (KeepsAfter c op keep) t t' := by
  cases op with
  | declare x =>
    obtain rfl := hs
    refine ⟨_, rfl, Thins.congr ?_ (keepsAfter_of_some (d := x) rfl)⟩
    exact (((h.setState x .uninitialized).killLoansHeldBy fun _ hne =>
      Site.alsoKeeps_of_ne hne).forgetProvenance x).forgetResources x
  | init x source =>
    cases source with
    | none =>
      obtain ⟨t', hs', ht⟩ := Site.store_thinned regions h hs
      exact ⟨t', hs', ht.congr (keepsAfter_of_some rfl)⟩
    | some y =>
      obtain ⟨t', hs', ht⟩ := Site.assigns_thinned regions h (huses y (by simp [Op.uses])) hs
      exact ⟨t', hs', ht.congr (keepsAfter_of_some rfl)⟩
  | move x y =>
    obtain ⟨t', hs', ht⟩ := Site.assigns_thinned regions h (huses y (by simp [Op.uses])) hs
    exact ⟨t', hs', ht.congr (keepsAfter_of_some rfl)⟩
  | copy x y =>
    obtain ⟨t', hs', ht⟩ := Site.copies_thinned regions h (huses y (by simp [Op.uses])) hs
    exact ⟨t', hs', ht.congr (keepsAfter_of_some rfl)⟩
  | borrow y kind x =>
    have href : c.isRef x = .ok true := Site.isRef_iff.mpr (hfit.ref y kind x rfl)
    obtain ⟨t', hs', ht⟩ := Site.borrow_thinned regions h (huses y (by simp [Op.uses])) href hs
    exact ⟨t', hs', ht.congr (keepsAfter_of_some rfl)⟩
  | use x =>
    obtain ⟨hread, rfl⟩ := hs
    exact ⟨s', ⟨Site.readViolation_thinned regions h hread, rfl⟩, h.congr (keepsAfter_of_none rfl)⟩
  | write x value =>
    cases value with
    | none =>
      obtain ⟨t', hs', ht⟩ := Site.writeThrough_thinned regions h hs
      exact ⟨t', hs', ht.congr (keepsAfter_of_none rfl)⟩
    | some y =>
      obtain ⟨u, htake, hwrite⟩ := hs
      obtain ⟨u', htake', hu⟩ := Site.moveOut_thinned regions h htake
      obtain ⟨t', hwrite', ht⟩ := Site.writeThrough_thinned regions hu hwrite
      exact ⟨t', ⟨u', htake', hwrite'⟩, ht.congr (keepsAfter_of_none rfl)⟩
  | call call => exact calls_thinned regions h hnone hfit huses hs
  | endScope scope =>
    obtain ⟨t', hs', ht⟩ := Site.dropScope_thinned regions h hlive hs
    exact ⟨t', hs', ht.congr (keepsAfter_of_none rfl)⟩
  | unsupported name => exact hs.elim

end

/-- A terminator that finds nothing wrong finds nothing wrong without the loans of some holders. -/
theorem leaves_thinned (h : Thins keep s s') {terminator : Option Terminator}
    (hs : Leaves c s t terminator) :
    ∃ t', Leaves (c.within regions) s' t' terminator ∧ Thins keep t t' := by
  unfold Leaves at hs
  split at hs
  · obtain rfl := hs
    exact ⟨s', rfl, h⟩
  · obtain rfl := hs
    exact ⟨s', rfl, h⟩
  · obtain rfl := hs
    exact ⟨s', rfl, h⟩
  · obtain ⟨hread, rfl⟩ := hs
    exact ⟨s', ⟨Site.readViolation_thinned regions h hread, rfl⟩, h⟩
  · rename_i x
    rcases hs with ⟨href, hread, hret, rfl⟩ | ⟨href, htake⟩
    · obtain ⟨howner, hpromise⟩ := returnReference_nil_iff.mp hret
      have hret' : returnReference (c.within regions) x s' = .ok [] := returnReference_nil_iff.mpr
        ⟨fun l hl => howner l (h.mem hl), h.provenanceOf x ▸ hpromise⟩
      exact ⟨s', Or.inl ⟨href, Site.readViolation_thinned regions h hread, hret', rfl⟩, h⟩
    · obtain ⟨t', htake', ht⟩ := Site.moveOut_thinned regions h htake
      exact ⟨t', Or.inr ⟨href, htake'⟩, ht⟩
  · exact hs.elim

end Checker

end Ownership

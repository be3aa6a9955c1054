import Ownership.Proofs.Granted
import Ownership.Proofs.Steps

/-! # Where loans come from

A loan in force behind an operation that found nothing wrong was there before, and its holder has
not been defined anew; or the operation has taken it, and nothing stood in its way; or it is a copy
of a loan that an operand held. Loans made for a call end with it, so between operations every loan
is held by a reference.
-/
namespace Ownership
open Std

def Function.IsRef (f : Function) (types : TypeTable) (name : String) : Prop :=
  ∃ b d, f.bindings.get? name = some b ∧ types.fetch b.type = .ok d ∧ d.isRef = true

namespace Site
variable {c : Site} {s t : FlowState} {name dest source ref : String} {l : Loan}

theorem isRef_iff : c.isRef name = .ok true ↔ c.function.IsRef c.types name := by
  rw [isRef]
  constructor
  · intro h
    obtain ⟨b, hb, h⟩ := Except.bind_inv h
    obtain ⟨d, hd, h⟩ := Except.bind_inv h
    exact ⟨b, d, Function.binding_iff.mp hb, hd, Except.ok.inj h⟩
  · rintro ⟨b, d, hb, hd, href⟩
    exact (Except.bind_of_ok (Function.binding_iff.mpr hb)).trans
      ((Except.bind_of_ok hd).trans (congrArg Except.ok href))

@[simp] theorem renew_loans (tracks : Bool) : (c.renew name tracks s).loans = s.loans := by
  cases tracks <;> rfl

theorem mem_given {isRef tracks : Bool} :
    l ∈ (c.given name isRef tracks s).loans ↔ l ∈ s.loans ∧ (isRef = true → l.ref ≠ some name) := by
  rw [given]
  cases isRef with
  | true => simp
  | false =>
    simp only [Bool.false_eq_true, ↓reduceIte, false_implies, and_true]
    split <;> simp

/-- A binding that gets a value gives up the loans it holds, if it is a reference. -/
theorem store_loans (h : (c.store name).run s = .ok none t) :
    l ∈ t.loans ↔ l ∈ s.loans ∧ (c.isRef name = .ok true → l.ref ≠ some name) := by
  obtain ⟨-, -, isRef, tracks, href, -, rfl⟩ := store_none_iff.mp h
  rw [mem_given, href, Except.ok.injEq]

theorem mem_of_store {v : Option Violation} (h : (c.store name).run s = .ok v t)
    (hl : l ∈ t.loans) : l ∈ s.loans := by
  cases v with
  | some v => exact (store_some_inv h).1 ▸ hl
  | none => exact ((store_loans h).mp hl).1

theorem loans_of_moveOut {v : Option Violation} (h : (c.moveOut name).run s = .ok v t) :
    t.loans = s.loans := by
  rcases moveOut_inv h with ⟨-, -, rfl⟩ | ⟨-, -, rfl, -⟩ | ⟨-, -, rfl, -⟩ <;> rfl

theorem loans_of_writeThrough {v : Option Violation} (h : (c.writeThrough name).run s = .ok v t) :
    t.loans = s.loans := by
  obtain ⟨rfl, -⟩ | hwrite := writeThrough_inv h
  · rfl
  · cases v with
    | some v => rw [(write_some_inv hwrite).1]
    | none =>
      obtain ⟨-, tracks, -, rfl⟩ := write_none_iff.mp hwrite
      exact renew_loans tracks

/-- A destination that is a reference gets copies of the loans of its source; the source keeps them
unless it is moved. -/
theorem mem_transfer {moved : Bool} (h : (c.transfer dest source moved).run s = .ok () t) :
    l ∈ t.loans ↔ (l ∈ s.loans ∧ (c.isRef source = .ok true → moved = true → l.ref ≠ some source)) ∨
      (c.isRef source = .ok true ∧ c.isRef dest = .ok true ∧
        ∃ m ∈ s.loans, m.ref = some source ∧ m.retarget (some dest) = l) := by
  rcases transfer_iff.mp h with ⟨toRef, href, hdest, rfl⟩ | ⟨tracks, href, -, hcase⟩
  · rw [carryLoans, href, hdest]
    cases moved <;> cases toRef <;> simp [and_assoc]
  · have hloans : t.loans = s.loans := by
      rcases hcase with ⟨-, rfl⟩ | ⟨-, takes, -, rfl⟩
      · rfl
      · cases takes
        · rfl
        · exact (carryResources_sameRules dest source moved s).loans
    rw [hloans, href]
    simp

theorem mem_borrowed {through : Bool} {loan : Loan} :
    l ∈ (c.borrowed name ref through loan s).loans ↔ loan = l ∨ (l ∈ s.loans ∧ l.ref ≠ some ref) ∨
      (through = true ∧ ∃ m ∈ s.loans, m.ref = some name ∧ m.retarget (some ref) = l) := by
  rw [borrowed]
  cases through <;> simp [or_assoc, and_assoc]

/-- A loan granted to a reference is made here, and any loan in its way is held by the reference
itself. -/
theorem granted_borrow {kind : LoanKind} {b : Binding} {nextUse : String → Option UseSite}
    {loan : Loan} (h : s.checkBorrow (c.request name kind ref b) nextUse = .ok loan) :
    loan = { place := name, kind, ref := some ref, origin := c.location } ∧ ∀ m ∈ s.loans,
      m.place = name → kind = .exclusive ∨ m.kind = .exclusive → m.ref = some ref := by
  obtain ⟨-, -, hfree, rfl⟩ := FlowState.checkBorrow_ok_iff.mp h
  refine ⟨rfl, fun m hm hplace hkind => Classical.byContradiction fun hne => ?_⟩
  exact hfree m hm ⟨hplace, fun hheld => hne hheld.2, hkind⟩

/-- A loan granted to a call is made here, and no loan is in its way. -/
theorem granted_lend {kind : LoanKind} {mutable : Bool} {nextUse : String → Option UseSite}
    {loan : Loan} (h : s.checkBorrow (c.callRequest name kind mutable) nextUse = .ok loan) :
    loan = { place := name, kind, ref := none, origin := c.location, temporary := true } ∧
    ∀ m ∈ s.loans,
      m.place = name → kind ≠ .exclusive ∧ m.kind ≠ .exclusive := by
  obtain ⟨-, -, hfree, rfl⟩ := FlowState.checkBorrow_ok_iff.mp h
  refine ⟨rfl, fun m hm hplace => not_or.mp fun hkind => ?_⟩
  exact hfree m hm ⟨hplace, fun hheld => by simp [callRequest] at hheld, hkind⟩

end Site

namespace Passed
variable {p : Passed} {arg : String} {l loan : Loan}

theorem mem_loans : l ∈ p.loans ↔ (∃ arg : String, p.lent[arg]? = some l) ∨ l ∈ p.reborrows := by
  simp [loans, ExtTreeMap.mem_toList_iff_getElem?_eq_some]

theorem mem_addLent : l ∈ (p.addLent arg loan).loans ↔
    loan = l ∨ (∃ x : String, x ≠ arg ∧ p.lent[x]? = some l) ∨ l ∈ p.reborrows := by
  have hlent : (∃ x : String, (p.lent.insert arg loan)[x]? = some l) ↔
      loan = l ∨ ∃ x : String, x ≠ arg ∧ p.lent[x]? = some l := by
    constructor
    · rintro ⟨x, hx⟩
      rw [ExtTreeMap.getElem?_insert] at hx
      split at hx
      · exact Or.inl (Option.some.inj hx)
      · rename_i hne
        exact Or.inr ⟨x, fun h => hne (by simp [h]), hx⟩
    · rintro (rfl | ⟨x, hne, hx⟩)
      · exact ⟨arg, by simp⟩
      · refine ⟨x, ?_⟩
        rw [ExtTreeMap.getElem?_insert, if_neg (by simpa using Ne.symm hne)]
        exact hx
  rw [mem_loans, ← or_assoc, ← hlent]
  rfl

theorem mem_addReborrow : l ∈ (p.addReborrow loan).loans ↔ loan = l ∨ l ∈ p.loans := by
  rw [mem_loans, mem_loans]
  simp [addReborrow, or_left_comm, eq_comm]

end Passed

namespace Checker
open FlowState
variable {k : Checker} {c : Site} {s t u : FlowState} {p q : Passed} {callee : String} {l m : Loan}

structure MadeForCall (c : Site) (l : Loan) : Prop where
  ref : l.ref = none
  origin : l.origin = c.location
  temporary : l.temporary = true

/-- What passing some arguments has added to the loans of a state: loans for the call, which no loan
of the state stands against. -/
structure Lends (c : Site) (s : FlowState) (p : Passed) (u : FlowState) : Prop where
  loans : ∀ l, l ∈ u.loans ↔ l ∈ s.loans ∨ l ∈ p.loans
  made : ∀ l ∈ p.loans, MadeForCall c l
  free : ∀ l ∈ p.loans, ∀ m ∈ s.loans, m.place = l.place → l.kind ≠ .exclusive ∧ m.kind ≠ .exclusive
  lent : ∀ (x : String) (l : Loan), p.lent[x]? = some l → l.place = x

/-- Two shared loans for a call on one place are the same. -/
theorem MadeForCall.eq (hl : MadeForCall c l) (hm : MadeForCall c m) (hplace : l.place = m.place)
    (hkind : l.kind = m.kind) : l = m := by
  obtain ⟨hr, ho, ht⟩ := hl
  obtain ⟨hr', ho', ht'⟩ := hm
  cases l
  cases m
  simp_all

theorem lends_start : Lends c s {} s := by
  have hnone : ∀ l, l ∉ ({} : Passed).loans := by simp [Passed.loans]
  refine ⟨fun l => by simp [hnone], fun l hl => absurd hl (hnone l),
    fun l hl => absurd hl (hnone l), ?_⟩
  simp

theorem made_of_lend {arg : String} {kind : LoanKind} {mutable : Bool} {loan : Loan}
    (hlend : (c.lend arg kind mutable).run u = .ok (.ok loan) t) :
    t = u.addLoan loan c.span ∧ MadeForCall c loan ∧
      loan.place = arg ∧ ∀ m ∈ u.loans, m.place = arg → loan.kind ≠ .exclusive ∧
      m.kind ≠ .exclusive := by
  obtain ⟨hgranted, rfl⟩ := Site.lend_ok_iff.mp hlend
  obtain ⟨rfl, hfree⟩ := Site.granted_lend hgranted
  exact ⟨rfl, ⟨rfl, rfl, rfl⟩, rfl, hfree⟩

theorem Lends.addLoan (h : Lends c s p u) {loan : Loan} (hmade : MadeForCall c loan)
    (hfree : ∀ m ∈ u.loans, m.place = loan.place → loan.kind ≠ .exclusive ∧ m.kind ≠ .exclusive)
    (hloans : ∀ l, l ∈ q.loans ↔ loan = l ∨ l ∈ p.loans)
    (hlent : ∀ (x : String) (l : Loan), q.lent[x]? = some l → l.place = x) :
    Lends c s q (u.addLoan loan c.span) := by
  refine ⟨fun l => ?_, fun l hl => ?_, fun l hl m hm hplace => ?_, hlent⟩
  · rw [mem_addLoan, h.loans, hloans]
    exact or_left_comm
  · rcases (hloans l).mp hl with rfl | hl
    · exact hmade
    · exact h.made l hl
  · rcases (hloans l).mp hl with rfl | hl
    · exact hfree m ((h.loans m).mpr (Or.inl hm)) hplace
    · exact h.free l hl m hm hplace

theorem Lends.grants (h : Lends c s p u) {mode : Manner} {arg : String}
    (hpass : mode.Grants c p arg u q t) : Lends c s q t := by
  cases mode with
  | value =>
    obtain ⟨hmove, rfl⟩ := hpass
    exact ⟨by rw [Site.loans_of_moveOut hmove]; exact h.loans, h.made, h.free, h.lent⟩
  | owner exclusive =>
    obtain ⟨b, loan, -, hlend, rfl⟩ := hpass
    obtain ⟨rfl, hmade, rfl, hfree⟩ := made_of_lend hlend
    -- an argument lent before was lent shared, as it is now, so it is the same loan
    have hsame : ∀ l, p.lent[loan.place]? = some l → loan = l := by
      intro l hl
      have hmem : l ∈ p.loans := Passed.mem_loans.mpr (Or.inl ⟨_, hl⟩)
      have hplace := h.lent _ l hl
      have hkinds := hfree l ((h.loans l).mpr (Or.inr hmem)) hplace
      refine hmade.eq (h.made l hmem) hplace.symm ?_
      cases hk : loan.kind <;> cases hk' : l.kind <;> simp_all
    refine h.addLoan hmade hfree (fun l => ?_) fun x l hl => ?_
    · rw [Passed.mem_addLent, Passed.mem_loans]
      constructor
      · rintro (hl | ⟨x, -, hx⟩ | hl)
        · exact Or.inl hl
        · exact Or.inr (Or.inl ⟨x, hx⟩)
        · exact Or.inr (Or.inr hl)
      · rintro (hl | ⟨x, hx⟩ | hl)
        · exact Or.inl hl
        · by_cases hplace : x = loan.place
          · exact Or.inl (hsame l (hplace ▸ hx))
          · exact Or.inr (Or.inl ⟨x, hplace, hx⟩)
        · exact Or.inr (Or.inr hl)
    · change (p.lent.insert loan.place loan)[x]? = some l at hl
      rw [ExtTreeMap.getElem?_insert] at hl
      split at hl
      · rename_i heq
        cases hl
        exact LawfulEqCmp.eq_of_compare heq
      · exact h.lent x l hl
  | reference exclusive =>
    obtain ⟨-, -, loan, hlend, rfl⟩ := hpass
    obtain ⟨rfl, hmade, rfl, hfree⟩ := made_of_lend hlend
    exact h.addLoan hmade hfree (fun _ => Passed.mem_addReborrow) h.lent

/-- Passing an argument complains and lends nothing, or it does not complain. -/
theorem pass_cases {mode : Manner} {arg : String} (h : (mode.pass c callee p arg).run s = .ok q t) :
    (∃ v, q = p.blame v ∧ t.loans = s.loans) ∨ mode.Grants c p arg s q t := by
  have hlend : ∀ {kind : LoanKind} {mutable : Bool} {v : Violation},
      (c.lend arg kind mutable).run s = .ok (.error v) t → t = s := fun h => (Site.lend_iff.mp h).2
  cases mode with
  | value =>
    obtain ⟨v, hmove, rfl⟩ | hmove := passValue_iff.mp h
    · exact Or.inl ⟨v, rfl, Site.loans_of_moveOut hmove⟩
    · exact Or.inr hmove
  | owner exclusive =>
    obtain ⟨b, hb, ⟨v, hrefused, rfl⟩ | ⟨loan, hgranted, rfl⟩⟩ := passOwner_iff.mp h
    · exact Or.inl ⟨v, rfl, by rw [hlend hrefused]⟩
    · exact Or.inr ⟨b, loan, hb, hgranted, rfl⟩
  | reference exclusive =>
    obtain ⟨v, -, rfl, rfl⟩ | ⟨hread, writes, hwrites,
        ⟨-, -, rfl, rfl⟩ | ⟨hmay, ⟨v, hrefused, rfl⟩ | ⟨loan, hgranted, rfl⟩⟩⟩ :=
      passReference_iff.mp h
    · exact Or.inl ⟨v, rfl, rfl⟩
    · exact Or.inl ⟨_, rfl, rfl⟩
    · exact Or.inl ⟨v, rfl, by rw [hlend hrefused]⟩
    · exact Or.inr ⟨hread, ⟨writes, hwrites, hmay⟩, loan, hgranted, rfl⟩

theorem Lends.pass {mode : Manner} {arg : String} (h : Lends c s p u)
    (hpass : (mode.pass c callee p arg).run u = .ok q t) : Lends c s q t := by
  rcases pass_cases hpass with ⟨v, rfl, hloans⟩ | hgrants
  · exact ⟨hloans ▸ h.loans, h.made, h.free, h.lent⟩
  · exact h.grants hgrants

/-- Whatever is found on the way, the loans that passing the arguments adds are those that end with
the call. -/
theorem passAll_lends (args : List (String × Param)) (h : Lends c s p u)
    (hpass : (k.passAll c callee args p).run u = .ok q t) : Lends c s q t := by
  induction args generalizing p u with
  | nil =>
    cases hpass
    exact h
  | cons e args ih =>
    obtain ⟨mode, p', w, -, hmode, hrest⟩ := passAll_cons_iff.mp hpass
    exact ih (h.pass hmode) hrest

theorem PassesAll.lends {args : List (String × Param)} (h : Lends c s p u)
    (hpass : k.PassesAll c callee args p u q t) : Lends c s q t :=
  passAll_lends args h hpass.1

theorem Manner.Grants.mem_loans {mode : Manner} {arg : String} (h : mode.Grants c p arg s q t)
    (hl : l ∈ s.loans) : l ∈ t.loans := by
  cases mode with
  | value => rwa [Site.loans_of_moveOut h.1]
  | owner exclusive =>
    obtain ⟨b, loan, -, hlend, -⟩ := h
    obtain ⟨-, rfl⟩ := Site.lend_ok_iff.mp hlend
    exact mem_addLoan.mpr (Or.inr hl)
  | reference exclusive =>
    obtain ⟨-, -, loan, hlend, -⟩ := h
    obtain ⟨-, rfl⟩ := Site.lend_ok_iff.mp hlend
    exact mem_addLoan.mpr (Or.inr hl)

/-- An argument that an exclusive loan shuts is not passed. -/
theorem Manner.Grants.arg_free {mode : Manner} {arg : String} (h : mode.Grants c p arg s q t)
    (hl : l ∈ s.loans) (hplace : l.place = arg) : l.kind ≠ .exclusive := by
  cases mode with
  | value =>
    rcases Site.moveOut_none_iff.mp h.1 with ⟨-, hread, -⟩ | ⟨-, -, hfree, -⟩
    · exact (Site.readViolation_eq_none.mp hread).2 l hl hplace
    · exact absurd hplace (hfree l hl)
  | owner exclusive =>
    obtain ⟨b, loan, -, hlend, -⟩ := h
    exact ((Site.granted_lend (Site.lend_ok_iff.mp hlend).1).2 l hl hplace).2
  | reference exclusive => exact (Site.readViolation_eq_none.mp h.1).2 l hl hplace

theorem PassesAll.arg_free {args : List (String × Param)}
    (hpass : k.PassesAll c callee args p u q t) {arg : String} {param : Param}
    (harg : (arg, param) ∈ args) (hl : l ∈ u.loans) (hplace : l.place = arg) :
    l.kind ≠ .exclusive := by
  induction args generalizing p u with
  | nil => cases harg
  | cons e args ih =>
    obtain ⟨-, mode, p', w, -, hgrants, hrest⟩ := passesAll_cons_iff.mp hpass
    rcases List.mem_cons.mp harg with rfl | harg
    · exact hgrants.arg_free hl hplace
    · exact ih hrest harg (hgrants.mem_loans hl)

def Inherits (c : Site) (s : FlowState) (p : Passed) (dest arg : String) (l : Loan) : Prop :=
  (∃ loan, p.lent[arg]? = some loan ∧ loan.retarget (some dest) = l) ∨
    (p.lent[arg]? = none ∧ c.isRef arg = .ok true ∧ ∃ m ∈ s.loans, m.ref = some arg ∧
      m.retarget (some dest) = l)

theorem mem_inherit {dest arg : String} {acc acc' : Loans × Names}
    (h : inherit c s p dest acc arg = .ok acc') :
    l ∈ acc'.1 ↔ l ∈ acc.1 ∨ Inherits c s p dest arg l := by
  rw [inherit] at h
  rw [Inherits]
  cases hlent : p.lent[arg]? with
  | some loan =>
    rw [hlent] at h
    cases h
    simp [or_comm]
  | none =>
    rw [hlent] at h
    obtain ⟨isRef, href, h⟩ := Except.bind_inv h
    rw [href]
    cases isRef <;> cases h <;> simp [and_assoc]

theorem mem_inheritAll {sig : Signature} {call : Call} {dest : String} {inherited : Loans × Names}
    (h : inheritAll c sig call p dest s = .ok inherited) :
    l ∈ inherited.1 ↔ c.isRef dest = .ok true ∧
      ∃ args, sig.lenders c.types call = .ok args ∧ ∃ arg ∈ args, Inherits c s p dest arg l := by
  rw [inheritAll] at h
  obtain ⟨isRef, href, h⟩ := Except.bind_inv h
  rw [href]
  cases isRef with
  | false =>
    cases h
    simp
  | true =>
    obtain ⟨args, hargs, h⟩ := Except.bind_inv h
    have hmem : l ∈ inherited.1 ↔ l ∈ (∅ : Loans) ∨ ∃ arg ∈ args, Inherits c s p dest arg l :=
      Except.foldlM_collects (P := fun acc => l ∈ acc.1) (fun arg u v => mem_inherit) h
    rw [hmem, hargs]
    simp

/-- The operation takes the loan for the reference that it defines. Only a borrow finds a loan in
its way, and then one that the reference holds itself. -/
structure Taken (c : Site) (op : Op) (s : FlowState) (l : Loan) (d : String) : Prop where
  defined : d ∈ op.defs
  isRef : c.isRef d = .ok true
  holder : l.ref = some d
  origin : l.origin = c.location
  free : ∀ m ∈ s.loans, m.place = l.place → l.kind = .exclusive ∨ m.kind = .exclusive →
    m.ref = some d ∧ ∃ kind, op = .borrow l.place kind d

inductive Source (c : Site) (op : Op) (s : FlowState) (l : Loan) : Prop
  | kept (hmem : l ∈ s.loans) (hholder : ∀ d ∈ op.defs, c.isRef d = .ok true → l.ref ≠ some d)
  | taken {d : String} (h : Taken c op s l d)
  | cloned {m : Loan} {x d : String} (hmem : m ∈ s.loans) (hx : x ∈ op.uses)
      (hholder : m.ref = some x) (hd : d ∈ op.defs) (href : c.isRef d = .ok true)
      (heq : m.retarget (some d) = l)

section
variable {op : Op} {dest source : String}

/-- The loans after a transfer, if the operation uses its source and defines its destination. -/
theorem source_of_transfer (huse : source ∈ op.uses) (hdefs : op.defs = [dest])
    (hgive : (c.store dest).run s = .ok none u) {moved : Bool}
    (htransfer : (c.transfer dest source moved).run u = .ok () t) (hl : l ∈ t.loans) :
    Source c op s l := by
  rcases (Site.mem_transfer htransfer).mp hl with ⟨hl, -⟩ | ⟨-, hdest, m, hm, hholder, rfl⟩
  · obtain ⟨hl, hother⟩ := (Site.store_loans hgive).mp hl
    exact .kept hl (by rw [hdefs]; simpa using hother)
  · obtain ⟨hm, -⟩ := (Site.store_loans hgive).mp hm
    exact .cloned hm huse hholder (by rw [hdefs]; exact List.mem_singleton_self dest) hdest rfl

theorem source_of_assigns (huse : source ∈ op.uses) (hdefs : op.defs = [dest])
    (h : c.Assigns dest source s t) (hl : l ∈ t.loans) : Source c op s l := by
  obtain ⟨dup, v, w, -, htake, hgive, htransfer⟩ := h
  have hsource := source_of_transfer huse hdefs hgive htransfer hl
  have hloans := Site.loans_of_moveOut htake
  cases hsource with
  | kept hmem hholder => exact .kept (hloans ▸ hmem) hholder
  | taken h => exact .taken { h with free := hloans ▸ h.free }
  | cloned hmem hx hholder hd href heq => exact .cloned (hloans ▸ hmem) hx hholder hd href heq

theorem source_of_calls {call : Call}
    (hfit : (Op.call call).Fits c.function c.types (k.signaturesFor c.function))
    (h : k.Calls c call s t) (hl : l ∈ t.loans) : Source c (.call call) s l := by
  obtain ⟨sig, passed, w, hsig, hpass, hcase⟩ := h
  have hlends := PassesAll.lends lends_start hpass
  have hkept : ∀ {m}, m ∈ (w.removeLoans passed.loans).loans → m ∈ s.loans := by
    intro m hm
    obtain ⟨hm, hstays⟩ := mem_removeLoans.mp hm
    exact ((hlends.loans m).mp hm).resolve_right hstays
  rcases hcase with ⟨hdest, rfl⟩ | ⟨dest, inherited, v, isRef, hdest, hinherit, hgive, href, rfl⟩
  · exact .kept (hkept hl) (by simp [Op.defs, Op.defined?, hdest])
  · have hdefs : (Op.call call).defs = [dest] := by simp [Op.defs, Op.defined?, hdest]
    have hold : l ∈ v.loans → Source c (.call call) s l := by
      intro hl
      obtain ⟨hl, hother⟩ := (Site.store_loans hgive).mp hl
      exact .kept (hkept hl) (by rw [hdefs]; simpa using hother)
    cases isRef with
    | false => exact hold hl
    | true =>
      rcases mem_addLoans.mp hl with hl | hl
      · exact hold hl
      · obtain ⟨-, args, hargs, arg, harg, hcase⟩ := (mem_inheritAll hinherit).mp hl
        have hmem : dest ∈ (Op.call call).defs := by rw [hdefs]; exact List.mem_singleton_self dest
        rcases hcase with ⟨loan, hlent, rfl⟩ | ⟨-, -, m, hm, hholder, rfl⟩
        · have hloan : loan ∈ passed.loans := Passed.mem_loans.mpr (Or.inl ⟨arg, hlent⟩)
          refine .taken ⟨hmem, href, rfl, (hlends.made loan hloan).origin,
            fun m hm hplace hkind => ?_⟩
          obtain ⟨hfree, hfree'⟩ := hlends.free loan hloan m hm hplace
          exact (hkind.elim hfree hfree').elim
        · have hmade : m ∉ passed.loans := fun hm => by
            rw [(hlends.made m hm).ref] at hholder
            cases hholder
          obtain ⟨_, _, -, hbound⟩ := hfit.callee call rfl
          have huse : arg ∈ (Op.call call).uses :=
            Signature.mem_args_of_lenders hbound hargs arg harg
          exact .cloned (((hlends.loans m).mp hm).resolve_right hmade) huse hholder hmem href rfl

/-- Every loan behind an operation that finds nothing wrong has one of the three sources. -/
theorem Performs.loan_source (hfit : op.Fits c.function c.types (k.signaturesFor c.function))
    (h : k.Performs c s t op) (hl : l ∈ t.loans) : Source c op s l := by
  have hsame : op.defs = [] → l ∈ s.loans → Source c op s l := fun hdefs hl =>
    .kept hl (by simp [hdefs])
  cases op with
  | declare x =>
    obtain rfl := h
    obtain ⟨hl, hother⟩ := mem_declare.mp hl
    exact .kept hl (by simpa [Op.defs, Op.defined?] using fun _ => hother)
  | init x source =>
    cases source with
    | none =>
      obtain ⟨hl, hother⟩ := (Site.store_loans h).mp hl
      exact .kept hl (by simpa [Op.defs, Op.defined?] using hother)
    | some y => exact source_of_assigns (by simp [Op.uses]) rfl h hl
  | move x y => exact source_of_assigns (by simp [Op.uses]) rfl h hl
  | copy x y =>
    obtain ⟨-, -, w, u, tracks, hgive, htransfer, -, rfl⟩ := h
    exact source_of_transfer (by simp [Op.uses]) rfl hgive htransfer (by simpa using hl)
  | borrow y kind x =>
    obtain ⟨b, through, loan, -, -, hgranted, rfl⟩ := Site.borrow_none_iff.mp h
    obtain ⟨rfl, hfree⟩ := Site.granted_borrow hgranted
    have href : c.isRef x = .ok true := Site.isRef_iff.mpr (hfit.ref y kind x rfl)
    have hmem : x ∈ (Op.borrow y kind x).defs := List.mem_singleton_self x
    rcases Site.mem_borrowed.mp hl with rfl | ⟨hl, hother⟩ | ⟨-, m, hm, hholder, rfl⟩
    · exact .taken ⟨hmem, href, rfl, rfl,
        fun m hm hplace hkind => ⟨hfree m hm hplace hkind, kind, rfl⟩⟩
    · exact .kept hl (by simpa [Op.defs, Op.defined?] using fun _ => hother)
    · exact .cloned hm (List.mem_singleton_self y) hholder hmem href rfl
  | use x =>
    obtain ⟨-, rfl⟩ := h
    exact hsame rfl hl
  | write x value =>
    cases value with
    | none => exact hsame rfl (Site.loans_of_writeThrough h ▸ hl)
    | some y =>
      obtain ⟨u, htake, hwrite⟩ := h
      exact hsame rfl (Site.loans_of_moveOut htake ▸ Site.loans_of_writeThrough hwrite ▸ hl)
  | call call => exact source_of_calls hfit h hl
  | endScope scope =>
    obtain ⟨-, rfl⟩ := Site.dropScope_nil_iff.mp h
    refine hsame rfl ?_
    rw [Site.scopeEnded, foldl_drop_loans] at hl
    exact (mem_keepLoans.mp hl).1
  | unsupported name => exact h.elim

/-- Operands are read only where no exclusive loan shuts them. The one that is borrowed may be lent
to the reference that borrows it. -/
theorem Performs.operand_free (hfit : op.Fits c.function c.types (k.signaturesFor c.function))
    (h : k.Performs c s t op) {x : String} (hx : x ∈ op.uses) (hl : l ∈ s.loans)
    (hplace : l.place = x)
    (hkind : l.kind = .exclusive) : ∃ kind ref, op = .borrow x kind ref ∧ l.ref = some ref := by
  have hread : ∀ {action : String}, c.readViolation s x action ≠ none := fun hread =>
    (Site.readViolation_eq_none.mp hread).2 l hl hplace hkind
  have hmove : ∀ {v : FlowState}, (c.moveOut x).run s ≠ .ok none v := by
    intro v hmove
    rcases Site.moveOut_none_iff.mp hmove with ⟨-, hfree, -⟩ | ⟨-, -, hfree, -⟩
    · exact hread hfree
    · exact hfree l hl hplace
  have hwrite : ∀ {u v : FlowState}, u.loans = s.loans → (c.writeThrough x).run u ≠ .ok none v := by
    intro u v hloans hwrite
    rcases Site.writeThrough_none_iff.mp hwrite with ⟨-, -, hfree, -⟩ | ⟨-, hwrite⟩
    · exact (Site.readViolation_eq_none.mp hfree).2 l (hloans ▸ hl) hplace hkind
    · exact (Site.write_none_iff.mp hwrite).1.unlent l (hloans ▸ hl) hplace
  cases op with
  | init y source =>
    obtain rfl := Option.mem_toList.mp hx
    obtain ⟨dup, v, w, -, htake, -⟩ := h
    exact absurd htake hmove
  | move y source =>
    obtain rfl := List.mem_singleton.mp hx
    obtain ⟨dup, v, w, -, htake, -⟩ := h
    exact absurd htake hmove
  | copy y source =>
    obtain rfl := List.mem_singleton.mp hx
    exact absurd h.2.1 hread
  | borrow y kind ref =>
    obtain rfl := List.mem_singleton.mp hx
    obtain ⟨b, through, loan, -, -, hgranted, -⟩ := Site.borrow_none_iff.mp h
    exact ⟨kind, ref, rfl, (Site.granted_borrow hgranted).2 l hl hplace (Or.inr hkind)⟩
  | use y =>
    obtain rfl := List.mem_singleton.mp hx
    exact absurd h.1 hread
  | write y value =>
    cases value with
    | none =>
      obtain rfl := List.mem_singleton.mp hx
      exact absurd h (hwrite rfl)
    | some z =>
      obtain ⟨u, htake, hthrough⟩ := h
      rcases List.mem_cons.mp hx with rfl | hx
      · exact absurd hthrough (hwrite (Site.loans_of_moveOut htake))
      · obtain rfl := List.mem_singleton.mp hx
        exact absurd htake hmove
  | call call =>
    obtain ⟨sig, passed, w, hsig, hpass, -⟩ := h
    obtain ⟨sig', hsig', harity, -⟩ := hfit.callee call rfl
    cases hsig.symm.trans hsig'
    obtain ⟨param, hparam⟩ : ∃ param, (x, param) ∈ call.args.zip sig.params := by
      change x ∈ call.args at hx
      rw [← List.map_fst_zip harity.le] at hx
      obtain ⟨e, he, rfl⟩ := List.mem_map.mp hx
      exact ⟨e.2, he⟩
    exact (hpass.arg_free hparam hl hplace hkind).elim
  | _ => cases hx

end

/-- A terminator leaves the loans alone. -/
theorem Leaves.loans {terminator : Option Terminator} (h : Leaves c s t terminator) :
    t.loans = s.loans := by
  unfold Leaves at h
  split at h
  · rw [h]
  · rw [h]
  · rw [h]
  · rw [h.2]
  · rcases h with ⟨-, -, -, rfl⟩ | ⟨-, htake⟩
    · rfl
    · exact Site.loans_of_moveOut htake
  · exact h.elim

def HeldByRefs (f : Function) (types : TypeTable) (s : FlowState) : Prop :=
  ∀ l ∈ s.loans, ∃ x, l.ref = some x ∧ f.IsRef types x

theorem heldByRefs_kept {f : Function} : k.Kept f (HeldByRefs f k.types) where
  entry s hs l hl := absurd hl (entryState_loans hs l)
  op c op s t hf ht hfit hop hs l hl := by
    subst hf
    rw [← ht] at hfit hs ⊢
    cases (applyOp_nil_iff.mp hop).loan_source hfit hl with
    | kept hmem _ => exact hs l hmem
    | taken h => exact ⟨_, h.holder, Site.isRef_iff.mp h.isRef⟩
    | cloned _ _ _ _ href heq => exact ⟨_, by rw [← heq]; rfl, Site.isRef_iff.mp href⟩
  ending c terminator s t hop hs := by
    rw [HeldByRefs, (applyTerminator_nil_iff.mp hop).loans]
    exact hs
  loans s p hs l hl := hs l (mem_keepLoans.mp hl).1

end Checker

end Ownership

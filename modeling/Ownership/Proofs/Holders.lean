import Ownership.Proofs.LoanSource

/-! # Holders of loans

A loan is held by a reference that an operation has defined, whether or not the operation found
something wrong. It was there before, or is a copy of one that was, or was made by a borrow or for
the result of a call. So where only some references are defined, no other one holds a loan.
-/
namespace Ownership
open Std

namespace FlowState
variable {H : String → Prop} {s t : FlowState}

def HeldBy (H : String → Prop) (s : FlowState) : Prop := ∀ l ∈ s.loans, ∀ x, l.ref = some x → H x

theorem HeldBy.of_loans (h : s.HeldBy H) (ht : t.loans = s.loans) : t.HeldBy H := by
  rw [HeldBy, ht]
  exact h

theorem HeldBy.keepLoans (h : s.HeldBy H) (p : Loan → Bool) : (s.keepLoans p).HeldBy H :=
  fun l hl => h l (mem_keepLoans.mp hl).1

theorem HeldBy.merge (hs : s.HeldBy H) (ht : t.HeldBy H) : (s.merge t).HeldBy H :=
  fun l hl => (Loans.mem_join.mp hl).elim (hs l) (ht l)

/-- Which loans end depends only on the loans that there are. -/
theorem keepLoans_congr {p q : Loan → Bool} (h : ∀ l ∈ s.loans, p l = q l) :
    s.keepLoans p = s.keepLoans q := by
  have hkeep : s.loans.keep p = s.loans.keep q := by
    unfold Loans.keep
    apply ExtTreeMap.ext_getElem?
    intro l
    simp only [ExtTreeMap.getElem?_filter]
    grind
  rw [FlowState.keepLoans, FlowState.keepLoans, hkeep]

end FlowState

def Op.makesLoans : Op → Bool
  | .borrow .. | .call _ => true
  | _ => false

namespace Checker
variable {H : String → Prop} {k : Checker} {c : Site} {op : Op} {s t u : FlowState} {l : Loan}
    {dest source : String}

/-- The operation gives loans to the binding, which is a reference that it defines. Whether it is
one is not asked of the reference of a borrow. -/
structure Receives (c : Site) (op : Op) (d : String) : Prop where
  defined : d ∈ op.defs
  isRef : (∃ x kind, op = .borrow x kind d) ∨ c.isRef d = .ok true

/-- Where a loan comes from that is in force behind an operation, whatever the operation has found:
it was there before, or it is a copy of one that was there, or the operation has made it. -/
inductive Descends (c : Site) (op : Op) (s : FlowState) (l : Loan) : Prop
  | kept (hmem : l ∈ s.loans)
  | cloned {m : Loan} {d : String} (hmem : m ∈ s.loans) (hd : Receives c op d)
      (heq : m.retarget (some d) = l)
  | made {d : String} (hop : op.makesLoans = true) (hd : Receives c op d) (hholder : l.ref = some d)
      (horigin : l.origin = c.location) (hlasting : l.temporary = false)

theorem descends_of_transfer (hdefs : op.defs = [dest]) (hu : ∀ m ∈ u.loans, m ∈ s.loans)
    {moved : Bool} (hrun : (c.transfer dest source moved).run u = .ok () t) (hl : l ∈ t.loans) :
    Descends c op s l := by
  rcases (Site.mem_transfer hrun).mp hl with ⟨hl, -⟩ | ⟨-, href, m, hm, -, heq⟩
  · exact .kept (hu l hl)
  · exact .cloned (hu m hm) ⟨by simp [hdefs], Or.inr href⟩ heq

theorem descends_of_assign (hdefs : op.defs = [dest]) {source : Option String} {vs : List Violation}
    (hrun : (c.assign dest source).run s = .ok vs t) (hl : l ∈ t.loans) : Descends c op s l := by
  cases source with
  | none =>
    obtain ⟨refused, hgive, -⟩ := Site.assign_none_iff.mp hrun
    exact .kept (Site.mem_of_store hgive hl)
  | some source =>
    obtain ⟨dup, taken, u, refused, w, -, hmove, hgive, -, hcarry⟩ := Site.assign_some_iff.mp hrun
    have hw : ∀ m ∈ w.loans, m ∈ s.loans := fun m hm =>
      Site.loans_of_moveOut hmove ▸ Site.mem_of_store hgive hm
    obtain ⟨-, htransfer⟩ | ⟨-, rfl⟩ := hcarry
    · exact descends_of_transfer hdefs hw htransfer hl
    · exact .kept (hw l hl)

theorem descends_of_copy (hdefs : op.defs = [dest]) {vs : List Violation}
    (hrun : (c.copy dest source).run s = .ok vs t) (hl : l ∈ t.loans) : Descends c op s l := by
  obtain ⟨invalid, -, hrun⟩ := Site.copy_iff.mp hrun
  obtain ⟨refused, w, hgive, -, hcopy⟩ := Site.copyTyped_iff.mp hrun
  have hw : ∀ m ∈ w.loans, m ∈ s.loans := fun m => Site.mem_of_store hgive
  obtain ⟨-, u, tracks, htransfer, -, rfl⟩ | ⟨-, rfl⟩ := hcopy
  · exact descends_of_transfer hdefs hw htransfer (by simpa using hl)
  · exact .kept (hw l hl)

theorem descends_of_borrow {x ref : String} {kind : LoanKind} {v : Option Violation}
    (hrun : (c.borrow x kind ref).run s = .ok v t) (hl : l ∈ t.loans) :
    Descends c (.borrow x kind ref) s l := by
  have hreceives : Receives c (.borrow x kind ref) ref :=
    ⟨List.mem_singleton_self ref, Or.inl ⟨x, kind, rfl⟩⟩
  obtain ⟨b, through, -, -, ⟨w, -, -, rfl⟩ | ⟨loan, hgranted, -, rfl⟩⟩ := Site.borrow_iff.mp hrun
  · exact .kept (FlowState.mem_defineRef.mp hl).1
  · obtain ⟨rfl, -⟩ := Site.granted_borrow hgranted
    rcases Site.mem_borrowed.mp hl with rfl | ⟨hl, -⟩ | ⟨-, m, hm, -, heq⟩
    · exact .made rfl hreceives rfl rfl rfl
    · exact .kept hl
    · exact .cloned hm hreceives heq

/-- What is made for a call ends with it. Its result takes over copies, of the loans on the owners
lent and of those that the references passed hold. -/
theorem descends_of_call {call : Call} {vs : List Violation}
    (hrun : (k.applyCall c call).run s = .ok vs t) (hl : l ∈ t.loans) :
    Descends c (.call call) s l := by
  obtain ⟨sig, passed, u, -, hpass, hrest⟩ := applyCall_iff.mp hrun
  have hlends := passAll_lends _ lends_start hpass
  have hkept : ∀ m ∈ (u.removeLoans passed.loans).loans, m ∈ s.loans := by
    intro m hm
    obtain ⟨hm, hgone⟩ := FlowState.mem_removeLoans.mp hm
    exact ((hlends.loans m).mp hm).resolve_right hgone
  obtain ⟨-, -, rfl⟩ | ⟨dest, inherited, ws, hdest, hinherit, hreceive, -⟩ := hrest
  · exact .kept (hkept l hl)
  · obtain ⟨refused, w, isRef, hgive, -, -, rfl⟩ := receive_iff.mp hreceive
    have hold : ∀ m ∈ w.loans, m ∈ s.loans := fun m hm => hkept m (Site.mem_of_store hgive hm)
    split at hl
    · rcases FlowState.mem_addLoans.mp hl with hl | hl
      · exact .kept (hold l hl)
      · obtain ⟨href, args, -, arg, -, hcase⟩ := (mem_inheritAll hinherit).mp hl
        have hreceives : Receives c (.call call) dest :=
          ⟨by simp [Op.defs, Op.defined?, hdest], Or.inr href⟩
        rcases hcase with ⟨loan, hlent, rfl⟩ | ⟨-, -, m, hm, hholder, heq⟩
        · have hmade := hlends.made loan (Passed.mem_loans.mpr (Or.inl ⟨arg, hlent⟩))
          exact .made rfl hreceives rfl hmade.origin rfl
        · have hnot : m ∉ passed.loans := fun hm => by
            rw [(hlends.made m hm).ref] at hholder
            cases hholder
          exact .cloned (((hlends.loans m).mp hm).resolve_right hnot) hreceives heq
    · exact .kept (hold l hl)

theorem applyOp_descends {vs : List Violation} (hrun : (k.applyOp c op).run s = .ok vs t)
    (hl : l ∈ t.loans) : Descends c op s l := by
  cases op with
  | declare x =>
    cases hrun
    exact .kept (FlowState.mem_declare.mp hl).1
  | init x source => exact descends_of_assign rfl hrun hl
  | move dest source =>
    change (c.assign dest (some source)).run s = .ok vs t at hrun
    exact descends_of_assign rfl hrun hl
  | copy dest source => exact descends_of_copy rfl hrun hl
  | borrow x kind ref =>
    obtain ⟨v, hborrow, -⟩ := run_toList_iff.mp hrun
    exact descends_of_borrow hborrow hl
  | use x =>
    cases hrun
    exact .kept hl
  | write target value =>
    cases value with
    | none =>
      obtain ⟨v, hwrite, -⟩ := run_toList_iff.mp hrun
      exact .kept (Site.loans_of_writeThrough hwrite ▸ hl)
    | some value =>
      obtain ⟨taken, u, refused, hmove, hwrite, -⟩ := applyOp_write_some_iff.mp hrun
      exact .kept (Site.loans_of_moveOut hmove ▸ Site.loans_of_writeThrough hwrite ▸ hl)
  | call call => exact descends_of_call hrun hl
  | endScope scope =>
    obtain ⟨-, rfl⟩ := Site.dropScope_iff.mp hrun
    rw [Site.scopeEnded, FlowState.foldl_drop_loans] at hl
    exact .kept (FlowState.mem_keepLoans.mp hl).1
  | unsupported name => cases hrun

theorem loans_of_applyTerminator {terminator : Option Terminator} {vs : List Violation}
    (hrun : (applyTerminator c terminator).run s = .ok vs t) : t.loans = s.loans := by
  cases terminator with
  | none => cases hrun
  | some terminator =>
    cases terminator with
    | jump target =>
      cases hrun
      rfl
    | branch l m cond => cases cond <;> cases hrun <;> rfl
    | ret value =>
      cases value with
      | none =>
        cases hrun
        rfl
      | some value =>
        obtain ⟨-, rfl, -⟩ | ⟨-, taken, hmove, -⟩ := applyReturn_iff.mp hrun
        · rfl
        · exact Site.loans_of_moveOut hmove
    | unsupported name => cases hrun

/-- An operation gives loans only to what it defines. -/
theorem applyOp_heldBy (h : s.HeldBy H) (hdefs : ∀ d ∈ op.defs, H d) {vs : List Violation}
    (hrun : (k.applyOp c op).run s = .ok vs t) : t.HeldBy H := by
  intro l hl x hx
  cases applyOp_descends hrun hl with
  | kept hmem => exact h l hmem x hx
  | cloned hmem hd heq =>
    subst heq
    exact Option.some.inj hx ▸ hdefs _ hd.defined
  | made hop hd hholder => exact Option.some.inj (hholder.symm.trans hx) ▸ hdefs _ hd.defined

theorem applyTerminator_heldBy (h : s.HeldBy H) {terminator : Option Terminator}
    {vs : List Violation} (hrun : (applyTerminator c terminator).run s = .ok vs t) : t.HeldBy H :=
  h.of_loans (loans_of_applyTerminator hrun)

section Blocks
variable {f : Function} {r : Regions} {b : Block} {e : Event} {es : List Event}

theorem applyInstruction_heldBy (h : s.HeldBy H) {i : Instruction} (hdefs : ∀ d ∈ i.op.defs, H d)
    (hrun : (k.applyInstruction r c i).run s = .ok e t) : t.HeldBy H := by
  obtain ⟨vs, u, hop, -, rfl⟩ := applyInstruction_iff.mp hrun
  exact (applyOp_heldBy h hdefs hop).keepLoans _

theorem applyFrom_heldBy (h : s.HeldBy H) {n : Int} (rest : List Instruction)
    (hdefs : ∀ i ∈ rest, ∀ d ∈ i.op.defs, H d)
    (hrun : (k.applyFrom f r b n rest).run s = .ok es t) : t.HeldBy H := by
  induction rest generalizing n s es with
  | nil =>
    obtain ⟨e, he, -⟩ := applyFrom_nil_iff.mp hrun
    obtain ⟨vs, u, hterm, -, rfl⟩ := applyEnding_iff.mp he
    exact (applyTerminator_heldBy h hterm).keepLoans _
  | cons i rest ih =>
    obtain ⟨hi, hrest⟩ := List.forall_mem_cons.mp hdefs
    obtain ⟨e, u, es', he, hrun, -⟩ := applyFrom_cons_iff.mp hrun
    exact ih (applyInstruction_heldBy h hi he) hrest hrun

/-- A block gives loans only to what is defined in it. -/
theorem transferBlock_heldBy (h : s.HeldBy H) {l : String} (hb : f.blocks.get? l = some b)
    (hdefs : ∀ i ∈ b.body, ∀ d ∈ i.op.defs, H d) (hrun : k.transferBlock f r l s = .ok (t, es)) :
    t.HeldBy H := by
  obtain ⟨b', hb', hrun⟩ := transferBlock_iff.mp hrun
  cases hb.symm.trans hb'
  exact applyFrom_heldBy h b.body hdefs hrun

end Blocks

end Checker

end Ownership

import Ownership.Proofs.Handover
import Ownership.Proofs.Lenders

/-! # Overwrites that are refused

An operation that gives a value reads its operands first and then asks for its target. Where the
target is refused, what the operands led to is what remains: nothing about the target changes, and
the loans made for a call have ended. Calls are the exception. The result of a call takes loans over
whenever it is a reference that has a value, which it also is after its overwrite has been refused.
-/
namespace Ownership
open Std

namespace Checker
open FlowState
variable {k : Checker} {c : Site} {s t u : FlowState} {p q : Passed} {callee arg : String}

/-- An operation adds no loan before it asks for its target: the loans for a call are gone by
then. -/
theorem Prepares.mem_loans {op : Op} {vs : List Violation} (h : k.Prepares c s vs u op) {l : Loan}
    (hl : l ∈ u.loans) : l ∈ s.loans := by
  cases op with
  | init x source =>
    cases source with
    | none => exact h.2 ▸ hl
    | some source =>
      obtain ⟨taken, hmove, -⟩ := h
      exact Site.loans_of_moveOut hmove ▸ hl
  | move dest source =>
    obtain ⟨taken, hmove, -⟩ := h
    exact Site.loans_of_moveOut hmove ▸ hl
  | copy dest source =>
    obtain ⟨-, -, -, rfl⟩ := h
    exact hl
  | call call =>
    obtain ⟨sig, passed, w, -, hpass, -, rfl⟩ := h
    obtain ⟨hw, hgone⟩ := mem_removeLoans.mp hl
    exact (((passAll_lends _ lends_start hpass).loans l).mp hw).resolve_right hgone
  | _ => exact h.elim

/-- A call passes its arguments and its loans end; `inherited` is what its result takes over if it
is a reference. -/
def Hands (k : Checker) (c : Site) (call : Call) (dest : String) (s : FlowState) (passed : Passed)
    (u : FlowState) (inherited : Loans × Names) : Prop :=
  ∃ sig w, (k.signaturesFor c.function).get? call.function = some sig ∧
    (k.passAll c call.function (call.args.zip sig.params) {}).run s = .ok passed w ∧
    inheritAll c sig call passed dest w = .ok inherited ∧ u = w.removeLoans passed.loans

theorem Hands.held {call : Call} {dest : String} {inherited : Loans × Names}
    (h : k.Hands c call dest s p u inherited) {l : Loan} (hl : l ∈ inherited.1) :
    l.ref = some dest := by
  obtain ⟨sig, w, -, -, hinherit, -⟩ := h
  obtain ⟨-, args, -, arg, -, ⟨m, -, rfl⟩ | ⟨-, -, m, -, -, rfl⟩⟩ := (mem_inheritAll hinherit).mp hl
  · rfl
  · rfl

/-- No loan made for the call is in the state any more, nor among those that its result takes
over. -/
theorem Hands.ended {call : Call} {dest : String} {inherited : Loans × Names}
    (h : k.Hands c call dest s p u inherited) {l : Loan} (hl : l ∈ p.loans) :
    l ∉ u.loans ∧ l ∉ inherited.1 := by
  refine ⟨fun hu => ?_, fun hin => ?_⟩
  · obtain ⟨sig, w, -, -, -, rfl⟩ := h
    exact (mem_removeLoans.mp hu).2 hl
  · have hheld := h.held hin
    obtain ⟨sig, w, -, hpass, -, -⟩ := h
    cases hheld.symm.trans ((passAll_lends _ lends_start hpass).made l hl).ref

/-- What a refused target leaves behind: the state that the operation asked with, unless the
operation is a call whose result is a reference with a value, which takes the loans over all the
same. -/
def LeavesRefused (k : Checker) (c : Site) (op : Op) (d : String) (s u t : FlowState) : Prop :=
  ((∀ call, op ≠ .call call) → t = u) ∧
  ∀ call, op = .call call → ∃ passed inherited isRef, k.Hands c call d s passed u inherited ∧
    c.isRef d = .ok isRef ∧
    t = if isRef = true ∧ u.stateOf d = .owned then inheritedBy d inherited u else u

theorem leavesRefused_self {op : Op} {d : String} (hop : ∀ call, op ≠ .call call) :
    k.LeavesRefused c op d s u u :=
  ⟨fun _ => rfl, fun call heq => absurd heq (hop call)⟩

theorem eq_of_refused {d : String} {refused : Option Violation}
    (h : (c.store d).run u = .ok refused t) (hsome : refused ≠ none) : t = u := by
  obtain ⟨v, rfl⟩ := Option.ne_none_iff_exists'.mp hsome
  exact (Site.store_some_inv h).1

theorem assign_refused {d source : String} {vs : List Violation}
    (h : (c.assign d (some source)).run s = .ok vs t) :
    ∃ taken u refused w, (c.moveOut source).run s = .ok taken u ∧
      (c.store d).run u = .ok refused w ∧
      vs = taken.toList ++ refused.toList ∧ (refused ≠ none → w = u ∧ t = u) := by
  obtain ⟨dup, taken, u, refused, w, -, htake, hgive, hvs, ht⟩ := Site.assign_some_iff.mp h
  refine ⟨taken, u, refused, w, htake, hgive, hvs, fun hsome => ?_⟩
  cases eq_of_refused hgive hsome
  rcases ht with ⟨⟨hnone, -⟩, -⟩ | ⟨-, rfl⟩
  · exact absurd hnone hsome
  · exact ⟨rfl, rfl⟩

/-- An operation that gives a value and has a result asked for its target, and was refused or
not. -/
theorem applyOp_refused {op : Op} {d : String} {vs : List Violation} (hop : op.assigned? = some d)
    (h : (k.applyOp c op).run s = .ok vs t) : ∃ ws u refused w, k.Prepares c s ws u op ∧
      (c.store d).run u = .ok refused w ∧ vs = ws ++ refused.toList ∧
      (refused ≠ none → w = u ∧ k.LeavesRefused c op d s u t) := by
  cases op with
  | init x source =>
    cases hop
    cases source with
    | none =>
      obtain ⟨refused, hgive, rfl⟩ := Site.assign_none_iff.mp h
      refine ⟨[], s, refused, t, ⟨rfl, rfl⟩, hgive, rfl, fun hsome => ?_⟩
      cases eq_of_refused hgive hsome
      exact ⟨rfl, leavesRefused_self fun _ heq => by cases heq⟩
    | some source =>
      obtain ⟨taken, u, refused, w, htake, hgive, rfl, hsame⟩ := assign_refused h
      refine ⟨_, u, refused, w, ⟨taken, htake, rfl⟩, hgive, rfl, fun hsome => ?_⟩
      obtain ⟨rfl, rfl⟩ := hsame hsome
      exact ⟨rfl, leavesRefused_self fun _ heq => by cases heq⟩
  | move dest source =>
    cases hop
    obtain ⟨taken, u, refused, w, htake, hgive, rfl, hsame⟩ := assign_refused h
    refine ⟨_, u, refused, w, ⟨taken, htake, rfl⟩, hgive, rfl, fun hsome => ?_⟩
    obtain ⟨rfl, rfl⟩ := hsame hsome
    exact ⟨rfl, leavesRefused_self fun _ heq => by cases heq⟩
  | copy dest source =>
    cases hop
    obtain ⟨invalid, hinvalid, h⟩ := Site.copy_iff.mp h
    obtain ⟨refused, w, hgive, rfl, hc⟩ := Site.copyTyped_iff.mp h
    refine ⟨_, s, refused, w, ⟨invalid, hinvalid, rfl, rfl⟩, hgive, rfl, fun hsome => ?_⟩
    cases eq_of_refused hgive hsome
    rcases hc with ⟨⟨hnone, -⟩, -⟩ | ⟨-, rfl⟩
    · exact absurd hnone hsome
    · exact ⟨rfl, leavesRefused_self fun _ heq => by cases heq⟩
  | call call =>
    obtain ⟨sig, passed, u, hsig, hpass, hcase⟩ := applyCall_iff.mp h
    rcases hcase with ⟨hdest, -, -⟩ | ⟨dest, inherited, ws, hdest, hinherit, hreceive, rfl⟩
    · cases hdest.symm.trans hop
    · cases hdest.symm.trans hop
      obtain ⟨refused, w, isRef, hgive, href, rfl, rfl⟩ := receive_iff.mp hreceive
      refine ⟨_, _, refused, w, ⟨sig, passed, u, hsig, hpass, rfl, rfl⟩, hgive, rfl,
        fun hsome => ?_⟩
      cases eq_of_refused hgive hsome
      refine ⟨rfl, fun hcall => absurd rfl (hcall call), ?_⟩
      rintro _ ⟨⟩
      exact ⟨passed, inherited, isRef, ⟨sig, u, hsig, hpass, hinherit, rfl⟩, href, rfl⟩
  | _ => cases hop

variable {f : Function} {r : Regions} {b : Block} {n : Int} {span : Span}

/-- Every operation that gives a value has a result where it fits its function. If its target is
refused, the target keeps its state and its resources, and no loan made for the operation remains.
An assignment, a move and a copy leave everything as it was when the target was asked for, and so
does a call unless its target is a reference that has a value. Such a reference is given the
lifetimes and, besides what it holds, the loans of the call's result: they are the only loans that
were not there before. -/
theorem refused_overwrite {op : Op} {d : String} (hop : op.assigned? = some d) :
    (k.TypesGrounded f → op.Fits f k.types (k.signaturesFor f) →
      ∃ vs t, (k.applyOp (k.site f r b n span) op).run s = .ok vs t) ∧
    ∀ vs t, (k.applyOp (k.site f r b n span) op).run s = .ok vs t → ∃ ws u refused w,
      k.Prepares (k.site f r b n span) s ws u op ∧
      (Site.store (k.site f r b n span) d).run u = .ok refused w ∧
      vs = ws ++ refused.toList ∧ (∀ l ∈ u.loans, l ∈ s.loans) ∧
      (refused ≠ none → t.stateOf d = u.stateOf d ∧ t.resources = u.resources ∧
        ((∀ call, op ≠ .call call) ∨ (k.site f r b n span).isRef d = .ok false ∨
          u.stateOf d ≠ .owned → t = u) ∧
        ∀ call, op = .call call → ∃ passed inherited,
          k.Hands (k.site f r b n span) call d s passed u inherited ∧
          (∀ l ∈ passed.loans, l ∉ t.loans) ∧
          (∀ l ∈ inherited.1, l.ref = some d) ∧
          ((k.site f r b n span).isRef d = .ok true → u.stateOf d = .owned →
            t.provenanceOf d = inherited.2 ∧
            ∀ l, l ∈ t.loans ↔ l ∈ u.loans ∨ l ∈ inherited.1)) := by
  refine ⟨fun ht hfit => applyOp_total ht hfit s, fun vs t h => ?_⟩
  obtain ⟨ws, u, refused, w, hprep, hgive, hvs, hleaves⟩ := applyOp_refused hop h
  refine ⟨ws, u, refused, w, hprep, hgive, hvs, fun l hl => hprep.mem_loans hl, fun hsome => ?_⟩
  obtain ⟨rfl, hother, hcall⟩ := hleaves hsome
  by_cases hop : ∃ call, op = .call call
  · obtain ⟨call, rfl⟩ := hop
    obtain ⟨passed, inherited, isRef, hands, href, ht⟩ := hcall call rfl
    by_cases htakes : isRef = true ∧ w.stateOf d = .owned
    · obtain ⟨rfl, howned⟩ := htakes
      rw [if_pos ⟨rfl, howned⟩] at ht
      subst ht
      refine ⟨rfl, rfl, ?_, ?_⟩
      · rintro (hne | hfalse | hne)
        · exact absurd rfl (hne call)
        · cases href.symm.trans hfalse
        · exact absurd howned hne
      · rintro _ ⟨⟩
        refine ⟨passed, inherited, hands, fun l hl hmem => ?_, fun l => hands.held,
          fun _ _ => ⟨?_, fun l => mem_addLoans⟩⟩
        · obtain ⟨hu, hin⟩ := hands.ended hl
          exact (mem_addLoans.mp hmem).elim hu hin
        · exact provenanceOf_setProvenance.trans (if_pos rfl)
    · rw [if_neg htakes] at ht
      subst ht
      refine ⟨rfl, rfl, fun _ => rfl, ?_⟩
      rintro _ ⟨⟩
      refine ⟨passed, inherited, hands, fun l hl => (hands.ended hl).1, fun l => hands.held,
        fun htrue howned => ?_⟩
      cases href.symm.trans htrue
      exact absurd ⟨rfl, howned⟩ htakes
  · have hne : ∀ call, op ≠ .call call := fun call heq => hop ⟨call, heq⟩
    cases hother hne
    exact ⟨rfl, rfl, fun _ => rfl, fun call heq => absurd heq (hne call)⟩

end Checker

def Access.outcome {α : Type} (x : Access α) (s : FlowState) : Except Fault (α × FlowState) :=
  match x.run s with
  | .ok a t => .ok (a, t)
  | .error e _ => .error e

theorem Access.outcome_iff {α : Type} {x : Access α} {s t : FlowState} {a : α} :
    x.outcome s = .ok (a, t) ↔ x.run s = .ok a t := by
  rw [outcome]
  split <;> simp_all

namespace Function

def pickedTooLate : Function :=
  let inner :=
    (ofSignature { name := "pickedTooLate" }).addScope { id := "inner", parent := some rootScope }
  let bound := [{ name := "m", type := 1 }, { name := "n", type := 1 },
    { name := "r", type := 4, scope := "inner" }].foldl addBinding inner
  bound.addBlock
    { label := "entry"
      body := [{ op := .init "m" none }, { op := .init "n" none }, { op := .call .pick },
        { op := .endScope "inner" },
        { op := .call .pick }]
      ending := some { terminator := .ret none } }

/-- A second choice is made for an immutable reference, and the number that it falls on is written
while the reference is still used. -/
def repicked : Function :=
  ofParts "repicked" [{ name := "m", type := 1 }, { name := "n", type := 1, mutable := true },
    { name := "r", type := 4 }]
    [{ label := "entry",
       body := [{ op := .init "m" none }, { op := .init "n" none }, { op := .call .pick },
         { op := .call { Call.pick with args := ["n", "m"] } }, { op := .write "n" none },
         { op := .use "r" }],
       ending := some { terminator := .ret none } }]

end Function

namespace Checker

/-- The reference that is gone is refused and stays gone, and nothing remains of the two loans of
the call. -/
theorem refused_overwrite_pickedTooLate :
    ∃ (r : Regions) (c : Site) (s t : FlowState) (es : List Event)
    (vs : List Violation) (passed : Passed) (inherited : Loans × Names),
    Regions.compute .pickedTooLate .tagged .lastUse = .ok r ∧
    c = picking.site .pickedTooLate r { label := "entry" } 4 .unknown ∧
    picking.Comes .pickedTooLate r ["entry"] 4 s es ∧
    (picking.applyOp c (.call .pick)).run s = .ok vs t ∧ vs.map Violation.kind = [.useAfterDrop] ∧
    t.stateOf "r" = .dropped ∧ picking.Hands c .pick "r" s passed t inherited ∧
    passed.loans.length = 2 ∧
    (∀ l ∈ passed.loans, l ∉ t.loans) ∧ ∀ l ∈ t.loans, l ∈ s.loans := by
  have hrun : (do
      let r ← Regions.compute .pickedTooLate .tagged .lastUse
      let c := picking.site .pickedTooLate r { label := "entry" } 4 .unknown
      let run ← picking.followTo .pickedTooLate r ["entry"] 4
      let passing ← (picking.passAll c "pick" (Call.pick.args.zip Signature.pick.params) {}).outcome
        run.1
      let asking ← (c.store "r").outcome (passing.2.removeLoans passing.1.loans)
      let call ← (picking.applyOp c (.call .pick)).outcome run.1
      return (asking.1.isSome ∧ asking.2.stateOf "r" = .dropped ∧
        call.1.map Violation.kind = [.useAfterDrop] ∧
        passing.1.loans.length = 2 : Bool) : Except Fault Bool) = .ok true := by decide +kernel
  obtain ⟨r, hr, hrun⟩ := Except.bind_inv hrun
  obtain ⟨⟨s, es⟩, hfollow, hrun⟩ := Except.bind_inv hrun
  obtain ⟨⟨passed, w⟩, hpass, hrun⟩ := Except.bind_inv hrun
  obtain ⟨⟨refused, w'⟩, hask, hrun⟩ := Except.bind_inv hrun
  obtain ⟨⟨vs, t⟩, hcall, hrun⟩ := Except.bind_inv hrun
  obtain ⟨hsome, hdropped, hkind, htwo⟩ := of_decide_eq_true (Except.ok.inj hrun)
  have happly := Access.outcome_iff.mp hcall
  have hop : (Op.call .pick).assigned? = some "r" := rfl
  obtain ⟨ws, u, refused', w'', ⟨sig, passed', x, hsig, hpass', -, rfl⟩, hask', -, hloans,
      hrefused⟩ :=
    (refused_overwrite hop).2 vs t happly
  cases hsig
  cases hpass'.symm.trans (Access.outcome_iff.mp hpass)
  cases hask'.symm.trans (Access.outcome_iff.mp hask)
  have hne : refused ≠ none := Option.isSome_iff_ne_none.mp hsome
  obtain ⟨v, rfl⟩ := Option.ne_none_iff_exists'.mp hne
  obtain ⟨rfl, -⟩ := Site.store_some_inv hask'
  obtain ⟨-, -, hsame, hcall⟩ := hrefused hne
  cases hsame (Or.inr (Or.inr (by rw [hdropped]; decide)))
  obtain ⟨passed', inherited, hands, hended, -⟩ := hcall .pick rfl
  obtain ⟨sig, x, hsig, hpass', hinherit, hu⟩ := hands
  cases hsig
  cases hpass'.symm.trans (Access.outcome_iff.mp hpass)
  exact ⟨r, _, s, _, es, vs, passed, inherited, hr, rfl,
    comes_of_followTo (.singleton rfl) hfollow rfl (by decide), happly,
    hkind, hdropped, ⟨_, w, rfl, hpass', hinherit, rfl⟩, htwo, hended, hloans⟩

/-- The immutable reference is refused and holds the loan of the second choice all the same: it is
said to lend the number that it never came to lend. -/
theorem repicked_takes_loans :
    ∃ (r : Regions) (report : FunctionReport) (c : Site) (s u t : FlowState) (es : List Event)
    (v : Violation),
    WellFormed.checkFunction .repicked .tagged (picking.signaturesFor .repicked) = .ok () ∧
    Regions.compute .repicked .tagged .lastUse = .ok r ∧
    c = picking.site .repicked r { label := "entry" } 3 .unknown ∧
    picking.Comes .repicked r ["entry"] 3 s es ∧
    picking.Prepares c s [] u (.call { Call.pick with args := ["n", "m"] }) ∧
    (c.store "r").run u = .ok (some v) u ∧
    (picking.applyOp c (.call { Call.pick with args := ["n", "m"] })).run s = .ok [v] t ∧
    t.loansHeldBy (some "r") ≠ u.loansHeldBy (some "r") ∧
    picking.checkFunction .repicked = .ok report ∧
    report.diagnostics.map Diagnostic.kind = [.immutableWrite, .writeWhileBorrowed] := by
  have hrun : (do
      let r ← Regions.compute .repicked .tagged .lastUse
      let report ← picking.checkFunction .repicked
      let c := picking.site .repicked r { label := "entry" } 3 .unknown
      let run ← picking.followTo .repicked r ["entry"] 3
      let passing ← (picking.passAll c "pick" (["n", "m"].zip Signature.pick.params) {}).outcome
        run.1
      let asking ← (c.store "r").outcome (passing.2.removeLoans passing.1.loans)
      let call ← (picking.applyOp c (.call { Call.pick with args := ["n", "m"] })).outcome run.1
      return (passing.1.violations = [] ∧ asking.1.isSome ∧ call.1 = asking.1.toList ∧
        (asking.2.loansHeldBy (some "r")).isEmpty ∧
        (call.2.loansHeldBy (some "r")).isEmpty = false ∧
        report.diagnostics.map Diagnostic.kind = [.immutableWrite, .writeWhileBorrowed] : Bool) :
          Except Fault Bool) = .ok true := by decide +kernel
  obtain ⟨r, hr, hrun⟩ := Except.bind_inv hrun
  obtain ⟨report, hreport, hrun⟩ := Except.bind_inv hrun
  obtain ⟨⟨s, es⟩, hfollow, hrun⟩ := Except.bind_inv hrun
  obtain ⟨⟨passed, w⟩, hpass, hrun⟩ := Except.bind_inv hrun
  obtain ⟨⟨refused, u⟩, hask, hrun⟩ := Except.bind_inv hrun
  obtain ⟨⟨vs, t⟩, hcall, hrun⟩ := Except.bind_inv hrun
  obtain ⟨hclean, hsome, hvs, hfree, hheld, hkinds⟩ := of_decide_eq_true (Except.ok.inj hrun)
  obtain ⟨v, rfl⟩ := Option.isSome_iff_exists.mp hsome
  cases hvs
  have hask := Access.outcome_iff.mp hask
  obtain ⟨rfl, -⟩ := Site.store_some_inv hask
  refine ⟨r, report, _, s, _, t, es, v, by decide, hr, rfl,
    comes_of_followTo (.singleton rfl) hfollow rfl (by decide),
    ⟨.pick, passed, w, rfl, Access.outcome_iff.mp hpass, hclean.symm, rfl⟩, hask,
    Access.outcome_iff.mp hcall,
    fun heq => ?_, hreport, hkinds⟩
  rw [heq, hfree] at hheld
  cases hheld

end Checker

end Ownership

import Ownership.Proofs.Covers

/-! # Operations without complaint

What an operation that finds nothing wrong has asked of the state, and what it does to it, written
as the accesses it is made of. Arguments about runs on which nothing is found start from here.
-/
namespace Ownership
open Std

namespace Site
variable {c : Site} {s t : FlowState} {name dest source ref : String} {kind : LoanKind}

theorem borrow_none_iff : (c.borrow name kind ref).run s = .ok none t ↔
    ∃ b through loan, c.function.binding name = .ok b ∧ c.isRef name = .ok through ∧
      s.checkBorrow (c.request name kind ref b) c.nextUse = .ok loan ∧
      t = c.borrowed name ref through loan s := by
  rw [borrow_iff]
  constructor
  · rintro ⟨b, through, hb, hthrough, ⟨_, _, ⟨⟩, _⟩ | ⟨loan, hgranted, -, rfl⟩⟩
    exact ⟨b, through, loan, hb, hthrough, hgranted, rfl⟩
  · rintro ⟨b, through, loan, hb, hthrough, hgranted, rfl⟩
    exact ⟨b, through, hb, hthrough, Or.inr ⟨loan, hgranted, rfl, rfl⟩⟩

theorem lend_ok_iff {mutable : Bool} {loan : Loan} :
    (c.lend name kind mutable).run s = .ok (.ok loan) t ↔
    s.checkBorrow (c.callRequest name kind mutable) c.nextUse = .ok loan ∧
    t = s.addLoan loan c.span := by
  rw [lend_iff, eq_comm]

def Assigns (c : Site) (dest source : String) (s t : FlowState) : Prop :=
  ∃ dup u w, c.isDuplicable source = .ok dup ∧ (c.moveOut source).run s = .ok none u ∧
    (c.store dest).run u = .ok none w ∧ (c.transfer dest source (!dup)).run w = .ok () t

theorem owned_of_moveOut (h : (c.moveOut name).run s = .ok none t) : s.stateOf name = .owned := by
  rcases moveOut_none_iff.mp h with ⟨-, hread, -⟩ | ⟨-, howned, -⟩
  · exact (readViolation_eq_none.mp hread).1
  · exact howned

theorem assign_some_nil_iff :
    (c.assign dest (some source)).run s = .ok [] t ↔ c.Assigns dest source s t := by
  rw [assign_some_iff]
  constructor
  · rintro ⟨dup, taken, u, refused, w, hdup, htake, hgive, hvs, hcarry⟩
    obtain ⟨rfl, rfl⟩ := toList_append_toList_eq_nil hvs.symm
    rcases hcarry with ⟨-, hcarry⟩ | ⟨hno, -⟩
    · exact ⟨dup, u, w, hdup, htake, hgive, hcarry⟩
    · exact absurd ⟨rfl, owned_of_moveOut htake⟩ hno
  · rintro ⟨dup, u, w, hdup, htake, hgive, hcarry⟩
    exact ⟨dup, none, u, none, w, hdup, htake, hgive, rfl,
      Or.inl ⟨⟨rfl, owned_of_moveOut htake⟩, hcarry⟩⟩

def Copies (c : Site) (dest source : String) (s t : FlowState) : Prop :=
  c.isDuplicable source = .ok true ∧ c.readViolation s source "copy" = none ∧
    ∃ w u tracks, (c.store dest).run s = .ok none w ∧
      (c.transfer dest source false).run w = .ok () u ∧
      c.tracksResource dest = .ok tracks ∧ t = c.renew dest tracks u

/-- A binding that has a value still has one when another has got its value. -/
theorem store_owned {x : String} (h : (c.store name).run s = .ok none t)
    (hx : s.stateOf x = .owned) : t.stateOf x = .owned := by
  obtain ⟨-, -, isRef, tracks, -, -, rfl⟩ := store_none_iff.mp h
  rw [stateOf_given, hx, ite_self]

theorem copy_nil_iff : (c.copy dest source).run s = .ok [] t ↔ c.Copies dest source s t := by
  rw [copy_iff]
  constructor
  · rintro ⟨invalid, hinvalid, hrun⟩
    obtain ⟨refused, w, hgive, hvs, hcopy⟩ := copyTyped_iff.mp hrun
    obtain ⟨hfirst, hrefused⟩ := List.append_eq_nil_iff.mp hvs.symm
    obtain ⟨rfl, hread⟩ := List.append_eq_nil_iff.mp hfirst
    cases Option.toList_eq_nil_iff.mp hrefused
    have hread := Option.toList_eq_nil_iff.mp hread
    have hdup : c.isDuplicable source = .ok true := by
      rcases hinvalid with ⟨hdup, -⟩ | ⟨-, _, _, -, -, ⟨⟩⟩
      exact hdup
    have hsource := store_owned hgive (readViolation_eq_none.mp hread).1
    rcases hcopy with ⟨-, u, tracks, htransfer, htracks, rfl⟩ | ⟨hno, -⟩
    · exact ⟨hdup, hread, w, u, tracks, hgive, htransfer, htracks, rfl⟩
    · exact absurd ⟨rfl, hsource⟩ hno
  · rintro ⟨hdup, hread, w, u, tracks, hgive, htransfer, htracks, rfl⟩
    have hsource := store_owned hgive (readViolation_eq_none.mp hread).1
    refine ⟨[], Or.inl ⟨hdup, rfl⟩, copyTyped_iff.mpr ⟨none, w, hgive, ?_, ?_⟩⟩
    · rw [hread]
      rfl
    · exact Or.inl ⟨⟨rfl, hsource⟩, u, tracks, htransfer, htracks, rfl⟩

end Site

namespace Checker
variable {k : Checker} {c : Site} {s t : FlowState} {p q : Passed} {arg callee : String}

def Manner.Grants (c : Site) (p : Passed) (arg : String) (s : FlowState) (q : Passed)
    (t : FlowState) : Manner → Prop
  | .value => (c.moveOut arg).run s = .ok none t ∧ q = p
  | .owner exclusive => ∃ b loan, c.function.binding arg = .ok b ∧
      (c.lend arg (kindFor exclusive) b.mutable).run s = .ok (.ok loan) t ∧ q = p.addLent arg loan
  | .reference exclusive => c.readViolation s arg "use" = none ∧
      (∃ writes, c.isExclusiveRef arg = .ok writes ∧ (exclusive = true → writes = true)) ∧
      ∃ loan, (c.lend arg (kindFor exclusive) true).run s = .ok (.ok loan) t ∧
        q = p.addReborrow loan

theorem pass_nil_iff {m : Manner} : (m.pass c callee p arg).run s = .ok q t ∧ q.violations = [] ↔
    p.violations = [] ∧ m.Grants c p arg s q t := by
  have hblame : ∀ {v : Violation}, q = p.blame v → q.violations ≠ [] := by
    rintro v rfl
    simp
  cases m with
  | value =>
    constructor
    · rintro ⟨h, hclean⟩
      rcases passValue_iff.mp h with ⟨v, -, hv⟩ | ⟨hmove, rfl⟩
      · exact absurd hclean (hblame hv)
      · exact ⟨hclean, hmove, rfl⟩
    · rintro ⟨hclean, hmove, rfl⟩
      exact ⟨passValue_iff.mpr (Or.inr ⟨hmove, rfl⟩), hclean⟩
  | owner exclusive =>
    constructor
    · rintro ⟨h, hclean⟩
      obtain ⟨b, hb, ⟨v, -, hv⟩ | ⟨loan, hlend, rfl⟩⟩ := passOwner_iff.mp h
      · exact absurd hclean (hblame hv)
      · exact ⟨hclean, b, loan, hb, hlend, rfl⟩
    · rintro ⟨hclean, b, loan, hb, hlend, rfl⟩
      exact ⟨passOwner_iff.mpr ⟨b, hb, Or.inr ⟨loan, hlend, rfl⟩⟩, hclean⟩
  | reference exclusive =>
    constructor
    · rintro ⟨h, hclean⟩
      rcases passReference_iff.mp h with ⟨v, -, hv, -⟩ | ⟨hread, writes, hwrites, hcase⟩
      · exact absurd hclean (hblame hv)
      · rcases hcase with ⟨-, -, hv, -⟩ | ⟨hmay, ⟨v, -, hv⟩ | ⟨loan, hlend, rfl⟩⟩
        · exact absurd hclean (hblame hv)
        · exact absurd hclean (hblame hv)
        · exact ⟨hclean, hread, ⟨writes, hwrites, hmay⟩, loan, hlend, rfl⟩
    · rintro ⟨hclean, hread, ⟨writes, hwrites, hmay⟩, loan, hlend, rfl⟩
      refine ⟨passReference_iff.mpr (Or.inr ⟨hread, writes, hwrites, Or.inr ⟨hmay, ?_⟩⟩), hclean⟩
      exact Or.inr ⟨loan, hlend, rfl⟩

def PassesAll (k : Checker) (c : Site) (callee : String) (args : List (String × Param)) (p : Passed)
    (s : FlowState) (q : Passed) (t : FlowState) : Prop :=
  (k.passAll c callee args p).run s = .ok q t ∧ q.violations = []

theorem passesAll_nil_iff : k.PassesAll c callee [] p s q t ↔ p.violations = [] ∧
    q = p ∧ t = s := by
  constructor
  · rintro ⟨h, hclean⟩
    cases h
    exact ⟨hclean, rfl, rfl⟩
  · rintro ⟨hclean, rfl, rfl⟩
    exact ⟨rfl, hclean⟩

theorem passesAll_cons_iff {param : Param} {args : List (String × Param)} :
    k.PassesAll c callee ((arg, param) :: args) p s q t ↔ p.violations = [] ∧ ∃ m p' u,
      k.manner c arg param = .ok m ∧ m.Grants c p arg s p' u ∧
      k.PassesAll c callee args p' u q t := by
  constructor
  · rintro ⟨h, hclean⟩
    obtain ⟨m, p', u, hm, hpass, hrest⟩ := passAll_cons_iff.mp h
    obtain ⟨ws, hws, -⟩ := passAll_follows args hrest
    have hp' : p'.violations = [] := (List.append_eq_nil_iff.mp (hws.symm.trans hclean)).1
    obtain ⟨hp, hgrants⟩ := pass_nil_iff.mp ⟨hpass, hp'⟩
    exact ⟨hp, m, p', u, hm, hgrants, hrest, hclean⟩
  · rintro ⟨hp, m, p', u, hm, hgrants, hrest, hclean⟩
    exact ⟨passAll_cons_iff.mpr ⟨m, p', u, hm, (pass_nil_iff.mpr ⟨hp, hgrants⟩).1, hrest⟩, hclean⟩

/-- A call without complaint passes its arguments, ends the loans made for it, and gives its
destination a value with what that inherits. -/
def Calls (k : Checker) (c : Site) (call : Call) (s t : FlowState) : Prop :=
  ∃ sig passed u, (k.signaturesFor c.function).get? call.function = some sig ∧
    k.PassesAll c call.function (call.args.zip sig.params) {} s passed u ∧
    ((call.dest = none ∧ t = u.removeLoans passed.loans) ∨
      ∃ dest inherited w isRef, call.dest = some dest ∧
        inheritAll c sig call passed dest u = .ok inherited ∧
        (c.store dest).run (u.removeLoans passed.loans) = .ok none w ∧ c.isRef dest = .ok isRef ∧
        t = if isRef then inheritedBy dest inherited w else w)

theorem receive_nil_iff {dest : String} {inherited : Loans × Names} :
    (receive c dest inherited).run s = .ok [] t ↔
    ∃ w isRef, (c.store dest).run s = .ok none w ∧ c.isRef dest = .ok isRef ∧
      t = if isRef then inheritedBy dest inherited w else w := by
  have howned : ∀ {w}, (c.store dest).run s = .ok none w → w.stateOf dest = .owned := by
    intro w h
    obtain ⟨-, -, isRef, tracks, -, -, rfl⟩ := Site.store_none_iff.mp h
    rw [Site.stateOf_given, if_pos rfl]
  rw [receive_iff]
  constructor
  · rintro ⟨refused, w, isRef, hgive, href, hvs, rfl⟩
    cases Option.toList_eq_nil_iff.mp hvs.symm
    exact ⟨w, isRef, hgive, href, by simp [howned hgive]⟩
  · rintro ⟨w, isRef, hgive, href, rfl⟩
    exact ⟨none, w, isRef, hgive, href, rfl, by simp [howned hgive]⟩

theorem applyCall_nil_iff {call : Call} :
    (k.applyCall c call).run s = .ok [] t ↔ k.Calls c call s t := by
  rw [applyCall_iff]
  constructor
  · rintro ⟨sig, passed, u, hsig, hpass,
      ⟨hdest, hvs, rfl⟩ | ⟨dest, inherited, ws, hdest, hinherit, hreceive, hvs⟩⟩
    · exact ⟨sig, passed, u, hsig, ⟨hpass, hvs.symm⟩, Or.inl ⟨hdest, rfl⟩⟩
    · obtain ⟨hclean, rfl⟩ := List.append_eq_nil_iff.mp hvs.symm
      obtain ⟨w, isRef, hgive, href, rfl⟩ := receive_nil_iff.mp hreceive
      exact ⟨sig, passed, u, hsig, ⟨hpass, hclean⟩,
        Or.inr ⟨dest, inherited, w, isRef, hdest, hinherit, hgive, href, rfl⟩⟩
  · rintro ⟨sig, passed, u, hsig, ⟨hpass, hclean⟩, ⟨hdest, rfl⟩ |
      ⟨dest, inherited, w, isRef, hdest, hinherit, hgive, href, rfl⟩⟩
    · exact ⟨sig, passed, u, hsig, hpass, Or.inl ⟨hdest, hclean.symm, rfl⟩⟩
    · refine ⟨sig, passed, u, hsig, hpass,
        Or.inr ⟨dest, inherited, [], hdest, hinherit, ?_, by rw [hclean]; rfl⟩⟩
      exact receive_nil_iff.mpr ⟨w, isRef, hgive, href, rfl⟩

/-- What an operation does if it finds nothing wrong. -/
def Performs (k : Checker) (c : Site) (s t : FlowState) : Op → Prop
  | .declare x => t = s.declare x
  | .init x none => (c.store x).run s = .ok none t
  | .init x (some y) | .move x y => c.Assigns x y s t
  | .copy x y => c.Copies x y s t
  | .borrow y kind x => (c.borrow y kind x).run s = .ok none t
  | .use x => c.readViolation s x "use" = none ∧ t = s
  | .write x none => (c.writeThrough x).run s = .ok none t
  | .write x (some y) =>
    ∃ u, (c.moveOut y).run s = .ok none u ∧ (c.writeThrough x).run u = .ok none t
  | .call call => k.Calls c call s t
  | .endScope scope => (c.dropScope scope).run s = .ok [] t
  | .unsupported _ => False

theorem run_toList_nil_iff {x : Access (Option Violation)} :
    (do return (← x).toList : Access (List Violation)).run s = .ok [] t ↔ x.run s = .ok none t := by
  rw [run_toList_iff]
  constructor
  · rintro ⟨v, hv, hvs⟩
    cases Option.toList_eq_nil_iff.mp hvs.symm
    exact hv
  · exact fun h => ⟨none, h, rfl⟩

theorem applyOp_nil_iff {op : Op} : (k.applyOp c op).run s = .ok [] t ↔ k.Performs c s t op := by
  cases op with
  | declare x =>
    constructor
    · intro h
      cases h
      rfl
    · rintro rfl
      rfl
  | init x source =>
    cases source with
    | none =>
      refine Site.assign_none_iff.trans ⟨?_, fun h => ⟨none, h, rfl⟩⟩
      rintro ⟨refused, hgive, hvs⟩
      cases Option.toList_eq_nil_iff.mp hvs.symm
      exact hgive
    | some y => exact Site.assign_some_nil_iff
  | move x y => exact Site.assign_some_nil_iff
  | copy x y => exact Site.copy_nil_iff
  | borrow y kind x => exact run_toList_nil_iff
  | use x =>
    refine run_toList_nil_iff.trans ?_
    simp [Performs, eq_comm]
  | write x value =>
    cases value with
    | none => exact run_toList_nil_iff
    | some y =>
      refine applyOp_write_some_iff.trans
        ⟨?_, fun ⟨u, htake, hwrite⟩ => ⟨none, u, none, htake, hwrite, rfl⟩⟩
      rintro ⟨taken, u, refused, htake, hwrite, hvs⟩
      obtain ⟨rfl, rfl⟩ := Site.toList_append_toList_eq_nil hvs.symm
      exact ⟨u, htake, hwrite⟩
  | call call => exact applyCall_nil_iff
  | endScope scope => exact Iff.rfl
  | unsupported name => exact ⟨nofun, nofun⟩

def Leaves (c : Site) (s t : FlowState) : Option Terminator → Prop
  | some (.jump _) | some (.branch _ _ none) | some (.ret none) => t = s
  | some (.branch _ _ (some x)) => c.readViolation s x "use" = none ∧ t = s
  | some (.ret (some x)) =>
    (c.isRef x = .ok true ∧ c.readViolation s x "return" = none ∧
      returnReference c x s = .ok [] ∧ t = s) ∨
      (c.isRef x = .ok false ∧ (c.moveOut x).run s = .ok none t)
  | _ => False

theorem applyReturn_nil_iff {x : String} :
    (applyReturn c x).run s = .ok [] t ↔ Leaves c s t (some (.ret (some x))) := by
  rw [applyReturn_iff, Leaves]
  constructor
  · rintro (⟨href, rfl, ⟨_, _, ⟨⟩⟩ | ⟨hread, hret⟩⟩ | ⟨href, taken, htake, hvs⟩)
    · exact Or.inl ⟨href, hread, hret, rfl⟩
    · cases Option.toList_eq_nil_iff.mp hvs.symm
      exact Or.inr ⟨href, htake⟩
  · rintro (⟨href, hread, hret, rfl⟩ | ⟨href, htake⟩)
    · exact Or.inl ⟨href, rfl, Or.inr ⟨hread, hret⟩⟩
    · exact Or.inr ⟨href, none, htake, rfl⟩

theorem applyTerminator_nil_iff {terminator : Option Terminator} :
    (applyTerminator c terminator).run s = .ok [] t ↔ Leaves c s t terminator := by
  have hstay : (pure [] : Access (List Violation)).run s = .ok [] t ↔ t = s := by
    simp [eq_comm]
  cases terminator with
  | none => exact ⟨nofun, nofun⟩
  | some terminator =>
    cases terminator with
    | jump target => exact hstay
    | branch thenTarget elseTarget cond =>
      cases cond with
      | none => exact hstay
      | some x =>
        refine run_toList_nil_iff.trans ?_
        simp [Leaves, eq_comm]
    | ret value =>
      cases value with
      | none => exact hstay
      | some x => exact applyReturn_nil_iff
    | unsupported name => exact ⟨nofun, nofun⟩

end Checker

end Ownership

import Ownership.Proofs.LoanSource

/-! # Lent bindings that get a new value

A lent binding is not overwritten by an assignment that finds nothing wrong. A declaration and a
borrow do not ask: the one makes its binding start anew, the other its reference, whoever still
holds a loan on them. So on a run on which nothing is found, a lent binding is replaced by one of
these two, or after the first of them.
-/
namespace Ownership
open Std

theorem Op.defined?_cases {op : Op} {x : String} (hx : op.defined? = some x) :
    op = .declare x ∨ (∃ y kind, op = .borrow y kind x) ∨ op.assigned? = some x := by
  cases op with
  | declare y =>
    cases hx
    exact Or.inl rfl
  | borrow y kind ref =>
    cases hx
    exact Or.inr (Or.inl ⟨y, kind, rfl⟩)
  | _ => exact Or.inr (Or.inr hx)

namespace FlowState
variable {s t u : FlowState}

/-- Each lent place of the second state has a value, or was lent in the first and is as it was
there. -/
def KeepsLent (s t : FlowState) : Prop :=
  ∀ l ∈ t.loans, t.stateOf l.place = .owned ∨
    (t.stateOf l.place = s.stateOf l.place ∧ ∃ m ∈ s.loans, m.place = l.place)

namespace KeepsLent

theorem of_subset (hstates : ∀ x, t.stateOf x = s.stateOf x) (hloans : ∀ l ∈ t.loans, l ∈ s.loans) :
    KeepsLent s t :=
  fun l hl => Or.inr ⟨hstates l.place, l, hloans l hl, rfl⟩

theorem trans (h : KeepsLent s u) (h' : KeepsLent u t) : KeepsLent s t := by
  intro l hl
  rcases h' l hl with howned | ⟨hstate, m, hm, hplace⟩
  · exact Or.inl howned
  · rw [hstate, ← hplace]
    exact h m hm

end KeepsLent

theorem stateOf_foldl_drop {names : List String} {s : FlowState} {x : String} :
    (names.foldl .drop s).stateOf x = if x ∈ names then .dropped else s.stateOf x :=
  foldl_drop_view (fun s => s.stateOf x) (fun _ _ => stateOf_setState) names s

end FlowState

namespace Site
open FlowState
variable {c : Site} {s t u : FlowState} {name dest source : String} {l : Loan}

/-- What is lent is not taken out. -/
theorem stateOf_of_moveOut (h : (c.moveOut name).run s = .ok none t) (hl : l ∈ s.loans) :
    t.stateOf l.place = s.stateOf l.place := by
  rcases moveOut_none_iff.mp h with ⟨-, -, rfl⟩ | ⟨-, -, hfree, rfl⟩
  · rfl
  · rw [stateOf_setState, if_neg (Ne.symm (hfree l hl))]

theorem moveOut_keepsLent (h : (c.moveOut name).run s = .ok none t) : KeepsLent s t := by
  intro l hl
  rw [loans_of_moveOut h] at hl
  exact Or.inr ⟨stateOf_of_moveOut h hl, l, hl, rfl⟩

theorem writeThrough_keepsLent (h : (c.writeThrough name).run s = .ok none t) : KeepsLent s t := by
  refine .of_subset (fun x => ?_) fun l hl => loans_of_writeThrough h ▸ hl
  rcases writeThrough_none_iff.mp h with ⟨-, -, -, rfl⟩ | ⟨-, hwrite⟩
  · rfl
  · obtain ⟨-, tracks, -, rfl⟩ := write_none_iff.mp hwrite
    exact stateOf_renew tracks s x

theorem store_stateOf (h : (c.store name).run s = .ok none t) (x : String) :
    t.stateOf x = if name = x then .owned else s.stateOf x := by
  obtain ⟨-, -, isRef, tracks, -, -, rfl⟩ := store_none_iff.mp h
  exact stateOf_given isRef tracks s x

theorem store_keepsLent (h : (c.store name).run s = .ok none t) : KeepsLent s t := by
  intro l hl
  rw [store_stateOf h]
  split
  · exact Or.inl rfl
  · exact Or.inr ⟨rfl, l, ((store_loans h).mp hl).1, rfl⟩

theorem transfer_keepsLent {moved : Bool} (h : (c.transfer dest source moved).run s = .ok () t) :
    KeepsLent s t := by
  intro l hl
  refine Or.inr ⟨transfer_same h l.place, ?_⟩
  rcases (mem_transfer h).mp hl with ⟨hl, -⟩ | ⟨-, -, m, hm, -, rfl⟩
  · exact ⟨l, hl, rfl⟩
  · exact ⟨m, hm, rfl⟩

theorem Assigns.keepsLent (h : c.Assigns dest source s t) : KeepsLent s t := by
  obtain ⟨dup, u, w, -, htake, hgive, htransfer⟩ := h
  exact ((moveOut_keepsLent htake).trans (store_keepsLent hgive)).trans
    (transfer_keepsLent htransfer)

theorem Copies.keepsLent (h : c.Copies dest source s t) : KeepsLent s t := by
  obtain ⟨-, -, w, u, tracks, hgive, htransfer, -, rfl⟩ := h
  refine ((store_keepsLent hgive).trans (transfer_keepsLent htransfer)).trans ?_
  exact .of_subset (stateOf_renew tracks u) fun l hl => by simpa using hl

theorem borrow_keepsLent {kind : LoanKind} {ref : String}
    (h : (c.borrow name kind ref).run s = .ok none t) : KeepsLent s t := by
  obtain ⟨b, through, loan, -, -, hgranted, rfl⟩ := borrow_none_iff.mp h
  obtain ⟨howned, -, -, hloan⟩ := checkBorrow_ok_iff.mp hgranted
  have hstate : ∀ x, (c.borrowed name ref through loan s).stateOf x = if ref = x then .owned
      else s.stateOf x :=
    fun x => stateOf_setState
  intro l hl
  rw [hstate]
  split
  · exact Or.inl rfl
  · rcases mem_borrowed.mp hl with rfl | ⟨hl, -⟩ | ⟨-, m, hm, -, rfl⟩
    · exact Or.inl (by rw [hloan]; exact howned)
    · exact Or.inr ⟨rfl, l, hl, rfl⟩
    · exact Or.inr ⟨rfl, m, hm, rfl⟩

theorem lend_keepsLent {kind : LoanKind} {mutable : Bool} {loan : Loan}
    (h : (c.lend name kind mutable).run s = .ok (.ok loan) t) : KeepsLent s t := by
  obtain ⟨hgranted, rfl⟩ := lend_ok_iff.mp h
  obtain ⟨howned, -, -, rfl⟩ := checkBorrow_ok_iff.mp hgranted
  intro l hl
  rcases mem_addLoan.mp hl with rfl | hl
  · exact Or.inl howned
  · exact Or.inr ⟨rfl, l, hl, rfl⟩

theorem dropScope_keepsLent {scope : String} (h : (c.dropScope scope).run s = .ok [] t) :
    KeepsLent s t := by
  obtain ⟨-, rfl⟩ := dropScope_nil_iff.mp h
  intro l hl
  rw [scopeEnded, foldl_drop_loans] at hl
  obtain ⟨hl, hstays⟩ := mem_keepLoans.mp hl
  have hplace : l.place ∉ c.bindingsOf scope := by
    simp only [Bool.and_eq_true, Bool.not_eq_eq_eq_not, Bool.not_true] at hstays
    simpa using hstays.1
  refine Or.inr ⟨?_, l, hl, rfl⟩
  rw [scopeEnded, stateOf_foldl_drop, if_neg hplace]
  rfl

end Site

namespace Checker
open FlowState
variable {k : Checker} {c : Site} {s t u : FlowState} {p q : Passed} {callee : String}
    {l : Loan} {op : Op}

theorem Manner.Grants.keepsLent {mode : Manner} {arg : String} (h : mode.Grants c p arg s q t) :
    KeepsLent s t := by
  cases mode with
  | value => exact Site.moveOut_keepsLent h.1
  | owner exclusive =>
    obtain ⟨b, loan, -, hlend, -⟩ := h
    exact Site.lend_keepsLent hlend
  | reference exclusive =>
    obtain ⟨-, -, loan, hlend, -⟩ := h
    exact Site.lend_keepsLent hlend

theorem Manner.Grants.stateOf {mode : Manner} {arg : String} (h : mode.Grants c p arg s q t)
    (hl : l ∈ s.loans) : t.stateOf l.place = s.stateOf l.place := by
  cases mode with
  | value => exact Site.stateOf_of_moveOut h.1 hl
  | owner exclusive =>
    obtain ⟨b, loan, -, hlend, -⟩ := h
    obtain ⟨-, rfl⟩ := Site.lend_ok_iff.mp hlend
    rfl
  | reference exclusive =>
    obtain ⟨-, -, loan, hlend, -⟩ := h
    obtain ⟨-, rfl⟩ := Site.lend_ok_iff.mp hlend
    rfl

/-- Passing arguments keeps what is lent, and leaves its state alone. -/
theorem PassesAll.lent {args : List (String × Param)} (h : k.PassesAll c callee args p s q t) :
    KeepsLent s t ∧ ∀ l ∈ s.loans, l ∈ t.loans ∧ t.stateOf l.place = s.stateOf l.place := by
  induction args generalizing p s with
  | nil =>
    obtain ⟨-, -, rfl⟩ := passesAll_nil_iff.mp h
    exact ⟨.of_subset (fun _ => rfl) fun _ hl => hl, fun l hl => ⟨hl, rfl⟩⟩
  | cons e args ih =>
    obtain ⟨-, mode, p', w, -, hgrants, hrest⟩ := passesAll_cons_iff.mp h
    obtain ⟨hkeeps, hlent⟩ := ih hrest
    refine ⟨hgrants.keepsLent.trans hkeeps, fun l hl => ?_⟩
    obtain ⟨hmem, hstate⟩ := hlent l (hgrants.mem_loans hl)
    exact ⟨hmem, hstate.trans (hgrants.stateOf hl)⟩

theorem Calls.keepsLent {call : Call} (h : k.Calls c call s t) : KeepsLent s t := by
  obtain ⟨sig, passed, w, hsig, hpass, hcase⟩ := h
  have hlends := PassesAll.lends lends_start hpass
  refine hpass.lent.1.trans ?_
  have hremoved : KeepsLent w (w.removeLoans passed.loans) :=
    .of_subset (fun _ => rfl) fun l hl => (mem_removeLoans.mp hl).1
  rcases hcase with ⟨-, rfl⟩ | ⟨dest, inherited, v, isRef, -, hinherit, hgive, -, rfl⟩
  · exact hremoved
  · have hgiven := hremoved.trans (Site.store_keepsLent hgive)
    cases isRef with
    | false => exact hgiven
    | true =>
      intro l hl
      rcases mem_addLoans.mp hl with hl | hl
      · exact hgiven l hl
      · have hplace : ∃ m ∈ w.loans, m.place = l.place := by
          obtain ⟨-, args, -, arg, -, ⟨loan, hlent, rfl⟩ | ⟨-, -, m, hm, -, rfl⟩⟩ :=
            (mem_inheritAll hinherit).mp hl
          · exact ⟨loan, (hlends.loans loan).mpr
              (Or.inr (Passed.mem_loans.mpr (Or.inl ⟨arg, hlent⟩))), rfl⟩
          · exact ⟨m, hm, rfl⟩
        change v.stateOf l.place = .owned ∨ (v.stateOf l.place = _ ∧ _)
        rw [Site.store_stateOf hgive]
        split
        · exact Or.inl rfl
        · exact Or.inr ⟨rfl, hplace⟩

/-- An operation that declares nothing keeps what is lent. -/
theorem Performs.keepsLent (h : k.Performs c s t op) (hop : ∀ x, op ≠ .declare x) :
    KeepsLent s t := by
  cases op with
  | declare x => exact absurd rfl (hop x)
  | init x source =>
    cases source with
    | none => exact Site.store_keepsLent h
    | some y => exact Site.Assigns.keepsLent h
  | move x y => exact Site.Assigns.keepsLent h
  | copy x y => exact Site.Copies.keepsLent h
  | borrow y kind x => exact Site.borrow_keepsLent h
  | use x =>
    obtain ⟨-, rfl⟩ := h
    exact .of_subset (fun _ => rfl) fun _ hl => hl
  | write x value =>
    cases value with
    | none => exact Site.writeThrough_keepsLent h
    | some y =>
      obtain ⟨u, htake, hwrite⟩ := h
      exact (Site.moveOut_keepsLent htake).trans (Site.writeThrough_keepsLent hwrite)
  | call call => exact Calls.keepsLent h
  | endScope scope => exact Site.dropScope_keepsLent h
  | unsupported name => exact h.elim

theorem Leaves.keepsLent {terminator : Option Terminator} (h : Leaves c s t terminator) :
    KeepsLent s t := by
  have hsame : t = s → KeepsLent s t := fun h => .of_subset (fun _ => by rw [h]) fun l hl => h ▸ hl
  unfold Leaves at h
  split at h
  · exact hsame h
  · exact hsame h
  · exact hsame h
  · exact hsame h.2
  · rcases h with ⟨-, -, -, rfl⟩ | ⟨-, htake⟩
    · exact hsame rfl
    · exact Site.moveOut_keepsLent htake
  · exact h.elim

/-- An operation that assigns does so only to what is not lent, unless it has no value: a loan is
still there, and its place as it was, when the target gets its value. -/
theorem Performs.unlent_of_owned (h : k.Performs c s t op) {x : String} (hx : op.assigned? = some x)
    (hl : l ∈ s.loans) (hplace : l.place = x) {y : String} (hholder : l.ref = some y) :
    s.stateOf x ≠ .owned := by
  have hgiven : ∀ {u w : FlowState}, l ∈ u.loans → u.stateOf x = s.stateOf x →
      (c.store x).run u = .ok none w → s.stateOf x ≠ .owned := by
    intro u w hmem hstate hgive howned
    obtain ⟨-, hwritable, -⟩ := Site.store_none_iff.mp hgive
    exact (hwritable (hstate.trans howned)).unlent l hmem hplace
  have hassigns : ∀ {source : String}, c.Assigns x source s t → s.stateOf x ≠ .owned := by
    rintro source ⟨dup, u, w, -, htake, hgive, -⟩
    exact hgiven (Site.loans_of_moveOut htake ▸ hl)
      (hplace ▸ Site.stateOf_of_moveOut htake hl) hgive
  cases op with
  | init d source =>
    cases hx
    cases source with
    | none => exact hgiven hl rfl h
    | some source => exact hassigns h
  | move d source =>
    cases hx
    exact hassigns h
  | copy d source =>
    cases hx
    obtain ⟨-, -, w, u, tracks, hgive, -⟩ := h
    exact hgiven hl rfl hgive
  | call call =>
    obtain ⟨sig, passed, w, hsig, hpass,
        ⟨hdest, -⟩ | ⟨dest, inherited, v, isRef, hdest, -, hgive, -⟩⟩ := h
    · cases hdest.symm.trans hx
    · cases hdest.symm.trans hx
      obtain ⟨hmem, hstate⟩ := hpass.lent.2 l hl
      have hstays : l ∉ passed.loans := by
        intro hmade
        rw [((PassesAll.lends lends_start hpass).made l hmade).ref] at hholder
        cases hholder
      exact hgiven (mem_removeLoans.mpr ⟨hmem, hstays⟩) (hplace ▸ hstate) hgive
  | _ => cases hx

variable {f : Function} {r : Regions} {path : List String} {n : Nat} {es es' : List Event}
    {x : String}

def RedeclaredBefore (k : Checker) (f : Function) (r : Regions) (path : List String)
    (es : List Event) (x : String) : Prop :=
  ∃ l before n s es' e b i, k.Comes f r (l :: before) n s es' ∧ l :: before <:+ path ∧
    es' ++ [e] <+: es ∧
    f.blocks.get? l = some b ∧ b.body[n]? = some i ∧ i.op = .declare x ∧
      ∃ loan ∈ s.loans, loan.place = x

theorem RedeclaredBefore.mono {path' : List String} (h : k.RedeclaredBefore f r path es x)
    (hpath : path <:+ path') (hes : es <+: es') : k.RedeclaredBefore f r path' es' x := by
  obtain ⟨l, before, n, s, es₀, e, b, i, hcomes, hsuffix, hprefix, h⟩ := h
  exact ⟨l, before, n, s, es₀, e, b, i, hcomes, hsuffix.trans hpath, hprefix.trans hes, h⟩

/-- Where nothing is found, every lent place has a value or has lost it to a declaration. -/
theorem Comes.lent_or_redeclared (h : k.Comes f r path n s es) (hes : Event.found es = [])
    (hl : l ∈ s.loans) : s.stateOf l.place = .owned ∨
      (s.stateOf l.place = .uninitialized ∧ k.RedeclaredBefore f r path es l.place) := by
  induction h generalizing l with
  | start hl' hs => exact absurd hl (entryState_loans hs l)
  | @op label before n s t es b i e hcomes hb hi he ih =>
    obtain ⟨hes, u, hop, rfl⟩ := applyInstruction_clean he hes
    obtain ⟨hl, -⟩ := mem_keepLoans.mp hl
    have hperforms := applyOp_nil_iff.mp hop
    have hlater : ∀ {x}, k.RedeclaredBefore f r (label :: before) es x →
        k.RedeclaredBefore f r (label :: before) (es ++ [e]) x :=
      fun h => h.mono (List.suffix_refl _) (List.prefix_append _ _)
    by_cases hdeclare : ∃ x, i.op = .declare x
    · obtain ⟨x, hx⟩ := hdeclare
      rw [hx] at hperforms
      obtain rfl : u = s.declare x := hperforms
      obtain ⟨hl, -⟩ := mem_declare.mp hl
      have hstate : (s.declare x).stateOf l.place = if x = l.place then .uninitialized
          else s.stateOf l.place :=
        stateOf_setState
      change (s.declare x).stateOf l.place = _ ∨ ((s.declare x).stateOf l.place = _ ∧ _)
      rw [hstate]
      split
      · rename_i heq
        refine Or.inr ⟨rfl, label, before, n, s, es, e, b, i, hcomes, List.suffix_refl _,
          List.prefix_refl _, hb, hi, ?_⟩
        exact ⟨by rw [hx, heq], l, hl, rfl⟩
      · exact (ih hes hl).imp id fun h => ⟨h.1, hlater h.2⟩
    · rcases hperforms.keepsLent (fun x hx => hdeclare ⟨x, hx⟩) l hl
        with howned | ⟨hstate, m, hm, hplace⟩
      · exact Or.inl howned
      · change u.stateOf l.place = _ ∨ (u.stateOf l.place = _ ∧ _)
        rw [hstate, ← hplace]
        exact (ih hes hm).imp id fun h => ⟨h.1, hlater h.2⟩
  | @ending label before s t es b e hcomes hb he ih =>
    obtain ⟨hes, u, hop, rfl⟩ := applyEnding_clean he hes
    obtain ⟨hl, -⟩ := mem_keepLoans.mp hl
    rcases (applyTerminator_nil_iff.mp hop).keepsLent l hl with howned | ⟨hstate, m, hm, hplace⟩
    · exact Or.inl howned
    · change u.stateOf l.place = _ ∨ (u.stateOf l.place = _ ∧ _)
      rw [hstate, ← hplace]
      exact (ih hes hm).imp id fun h =>
        ⟨h.1, h.2.mono (List.suffix_refl _) (List.prefix_append _ _)⟩
  | enter hcomes hb hm ih =>
    obtain ⟨hl, -⟩ := mem_keepLoans.mp hl
    exact (ih hes hl).imp id fun h => ⟨h.1, h.2.mono (List.suffix_cons _ _) (List.prefix_refl _)⟩

/-- Say that a run along a path comes with nothing found to an operation that declares a binding or
gives it a value and finds nothing wrong either, and that the binding is lent. Then the operation is
a declaration, or a borrow for which the binding is the reference, or the binding has been declared
again on the way while it was lent. Every other operation leaves a lent binding alone. -/
theorem lent_binding_replaced (hf : WellFormed.checkFunction f k.types (k.signaturesFor f) = .ok ())
    (h : k.Comes f r path n s es) (hes : Event.found es = [])
    (hop : (k.applyOp c op).run s = .ok [] t)
    (hx : op.defined? = some x) (hl : l ∈ s.loans) (hplace : l.place = x) :
    op = .declare x ∨ (∃ y kind, op = .borrow y kind x) ∨ k.RedeclaredBefore f r path es x := by
  obtain ⟨y, hholder, -⟩ := h.kept heldByRefs_kept (WellFormed.checkFunction_inv hf) hes l hl
  rcases Op.defined?_cases hx with hdeclare | hborrow | hassigned
  · exact Or.inl hdeclare
  · exact Or.inr (Or.inl hborrow)
  · have howned := (applyOp_nil_iff.mp hop).unlent_of_owned hassigned hl hplace hholder
    rw [← hplace] at howned ⊢
    exact Or.inr (Or.inr ((h.lent_or_redeclared hes hl).resolve_left howned).2)

end Checker

namespace Function

def redeclaredLent : Function :=
  ofParts "redeclaredLent" [{ name := "x", type := 1 }, { name := "r", type := 2 }]
    [{ label := "entry",
       body := [{ op := .init "x" none }, { op := .borrow "x" .shared "r" }, { op := .declare "x" },
         { op := .init "x" none }, { op := .use "r" }],
       ending := some { terminator := .ret none } }]

def relentReference : Function :=
  ofParts "relentReference"
    [{ name := "a", type := 1 }, { name := "b", type := 1 },
      { name := "p", type := 2, mutable := true },
     { name := "r", type := 2 }]
    [{ label := "entry",
       body := [{ op := .init "a" none }, { op := .init "b" none },
         { op := .borrow "a" .shared "p" },
         { op := .borrow "p" .shared "r" }, { op := .borrow "b" .shared "p" }, { op := .use "r" }],
       ending := some { terminator := .ret none } }]

end Function

namespace Checker

/-- Behind the second declaration the number is lent, and gets a value. -/
theorem lent_binding_redeclaredLent :
    ∃ (r : Regions) (s t : FlowState) (es : List Event) (l : Loan),
    WellFormed.checkFunction .redeclaredLent basic.types
      (basic.signaturesFor .redeclaredLent) = .ok () ∧
    Regions.compute .redeclaredLent .basic .lastUse = .ok r ∧
    basic.Comes .redeclaredLent r ["entry"] 3 s es ∧
    Event.found es = [] ∧
    (basic.applyOp (basic.site .redeclaredLent r { label := "entry" } 3 .unknown)
      (.init "x" none)).run s = .ok [] t ∧
    l ∈ s.loans ∧ l.place = "x" ∧ basic.RedeclaredBefore .redeclaredLent r ["entry"] es "x" := by
  have hf : WellFormed.checkFunction .redeclaredLent basic.types
      (basic.signaturesFor .redeclaredLent) = .ok () := by
    decide
  have hrun : (do
      let r ← Regions.compute .redeclaredLent .basic .lastUse
      let run ← basic.followTo .redeclaredLent r ["entry"] 3
      match (basic.applyOp (basic.site .redeclaredLent r { label := "entry" } 3 .unknown)
        (.init "x" none)).run run.1 with
      | .ok vs _ =>
        return (Event.found run.2 = [] ∧ vs = [] ∧ run.1.loans.toList.any (·.1.place == "x") : Bool)
      | .error e _ => throw e : Except Fault Bool) = .ok true := by decide +kernel
  obtain ⟨r, hr, hrun⟩ := Except.bind_inv hrun
  obtain ⟨⟨s, es⟩, hfollow, hrun⟩ := Except.bind_inv hrun
  dsimp only at hrun
  split at hrun
  · rename_i vs t hop
    obtain ⟨hes, rfl, hlent⟩ := of_decide_eq_true (Except.ok.inj hrun)
    obtain ⟨e, he, hplace⟩ := List.any_eq_true.mp hlent
    have hmem := Loans.mem_of_mem_toList he
    have hcomes := comes_of_followTo (.singleton rfl) hfollow rfl (by decide)
    refine ⟨r, s, t, es, e.1, hf, hr, hcomes, hes, hop, hmem, eq_of_beq hplace, ?_⟩
    rcases lent_binding_replaced hf hcomes hes hop rfl hmem (eq_of_beq hplace)
      with h | ⟨_, _, h⟩ | h
    · cases h
    · cases h
    · exact h
  · cases hrun

/-- The reference that is lent is replaced by a borrow although the loan on it is still needed:
nothing was found before, nothing is found there, and nothing is reported about the function. -/
theorem relentReference_replaced :
    ∃ (r : Regions) (report : FunctionReport) (s t : FlowState) (es : List Event) (l : Loan),
    WellFormed.checkFunction .relentReference basic.types
      (basic.signaturesFor .relentReference) = .ok () ∧
    Regions.compute .relentReference .basic .lastUse = .ok r ∧
    basic.checkFunction .relentReference = .ok report ∧
    report.diagnostics = [] ∧ basic.Comes .relentReference r ["entry"] 4 s es ∧
    Event.found es = [] ∧
    (basic.applyOp (basic.site .relentReference r { label := "entry" } 4 .unknown)
      (.borrow "b" .shared "p")).run s =
      .ok [] t ∧ l ∈ s.loans ∧ l.place = "p" ∧ l.ref = some "r" ∧
        r.isLiveAfter "r" "entry" 4 = true := by
  have hrun : (do
      let r ← Regions.compute .relentReference .basic .lastUse
      let report ← basic.checkFunction .relentReference
      let run ← basic.followTo .relentReference r ["entry"] 4
      match (basic.applyOp (basic.site .relentReference r { label := "entry" } 4 .unknown)
        (.borrow "b" .shared "p")).run run.1 with
      | .ok vs _ =>
        return (report.diagnostics = [] ∧ Event.found run.2 = [] ∧ vs = [] ∧
          r.isLiveAfter "r" "entry" 4 ∧
          run.1.loans.toList.any (fun e => e.1.place == "p" && e.1.ref == some "r") : Bool)
      | .error e _ => throw e : Except Fault Bool) = .ok true := by decide +kernel
  obtain ⟨r, hr, hrun⟩ := Except.bind_inv hrun
  obtain ⟨report, hreport, hrun⟩ := Except.bind_inv hrun
  obtain ⟨⟨s, es⟩, hfollow, hrun⟩ := Except.bind_inv hrun
  dsimp only at hrun
  split at hrun
  · rename_i vs t hop
    obtain ⟨hnone, hes, rfl, hlive, hlent⟩ := of_decide_eq_true (Except.ok.inj hrun)
    obtain ⟨e, he, hloan⟩ := List.any_eq_true.mp hlent
    obtain ⟨hplace, hholder⟩ := Bool.and_eq_true_iff.mp hloan
    have hcomes := comes_of_followTo (.singleton rfl) hfollow rfl (by decide)
    exact ⟨r, report, s, t, es, e.1, by decide, hr, hreport, hnone, hcomes, hes, hop,
      Loans.mem_of_mem_toList he, eq_of_beq hplace, eq_of_beq hholder, hlive⟩
  · cases hrun

end Checker

end Ownership

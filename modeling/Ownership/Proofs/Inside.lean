import Ownership.Check.Analysis
import Ownership.Proofs.Operations
import Ownership.Proofs.Universe
import Ownership.Proofs.WellFormed

/-! # Flow states stay inside the universe

No operation makes a flow state speak of anything but the bindings of its function, the points where
operations stand, and the lifetimes of the parameters.
-/
namespace Ownership
open Std

/-- What holds of the entries of two tables holds of those of their union. -/
theorem FlowState.unite_within {α : Type} [Ord α] [TransOrd α] {P : String → Prop} {Q : α → Prop}
    {a b : NameMap (ExtTreeSet α)}
    (ha : ∀ (x : String) (u : ExtTreeSet α), a[x]? = some u → P x ∧ ∀ y ∈ u, Q y)
    (hb : ∀ (x : String) (u : ExtTreeSet α), b[x]? = some u → P x ∧ ∀ y ∈ u, Q y) (x : String)
    (u : ExtTreeSet α) (hu : (unite (·.union ·) a b)[x]? = some u) : P x ∧ ∀ y ∈ u, Q y := by
  cases hbx : b[x]? with
  | none =>
    rw [getElem?_unite_of_none _ _ _ hbx] at hu
    exact ha x u hu
  | some v =>
    rw [getElem?_unite_of_some _ _ _ hbx] at hu
    obtain ⟨hx, hv⟩ := hb x v hbx
    cases hax : a[x]? with
    | none =>
      rw [hax] at hu
      cases hu
      exact ⟨hx, hv⟩
    | some u' =>
      rw [hax] at hu
      cases hu
      exact ⟨hx, fun y hy => (ExtTreeSet.mem_union_iff.mp hy).elim ((ha x u' hax).2 y) (hv y)⟩

namespace FlowState.Inside
variable {V : Vocabulary} {s t : FlowState} {name : String}

theorem setState (h : s.Inside V) (hx : name ∈ V.bindings) (state : OwnershipState) :
    (s.setState name state).Inside V where
  states x hx' := by
    rcases mem_states_setState.mp hx' with rfl | hx'
    · exact hx
    · exact h.states x hx'
  loans := h.loans
  provenance := h.provenance
  resources := h.resources

theorem keepLoans (h : s.Inside V) (p : Loan → Bool) : (s.keepLoans p).Inside V where
  states := h.states
  loans l hl := h.loans l (mem_keepLoans.mp hl).1
  provenance := h.provenance
  resources := h.resources

theorem addLoans (h : s.Inside V) {loans : Loans} (hl : ∀ l ∈ loans, V.HasLoan l) :
    (s.addLoans loans).Inside V where
  states := h.states
  loans l hl' := (mem_addLoans.mp hl').elim (h.loans l) (hl l)
  provenance := h.provenance
  resources := h.resources

theorem addLoan (h : s.Inside V) {loan : Loan} (hl : V.HasLoan loan) (span : Span) :
    (s.addLoan loan span).Inside V where
  states := h.states
  loans l hl' := by
    rcases mem_addLoan.mp hl' with rfl | hl'
    · exact hl
    · exact h.loans l hl'
  provenance := h.provenance
  resources := h.resources

theorem setProvenance (h : s.Inside V) (hx : name ∈ V.bindings) {lts : Names}
    (hlts : ∀ lt ∈ lts, lt ∈ V.lifetimes) : (s.setProvenance name lts).Inside V where
  states := h.states
  loans := h.loans
  provenance x u hu := by
    rw [getElem?_setProvenance] at hu
    split at hu
    · rename_i hxn
      cases hu
      exact ⟨hxn ▸ hx, hlts⟩
    · exact h.provenance x u hu
  resources := h.resources

theorem forgetProvenance (h : s.Inside V) (name : String) : (s.forgetProvenance name).Inside V where
  states := h.states
  loans := h.loans
  provenance x u hu := by
    rw [getElem?_forgetProvenance] at hu
    split at hu
    · cases hu
    · exact h.provenance x u hu
  resources := h.resources

theorem setResources (h : s.Inside V) (hx : name ∈ V.bindings) {held : Resources}
    (hr : ∀ r ∈ held, V.HasResource r) : (s.setResources name held).Inside V where
  states := h.states
  loans := h.loans
  provenance := h.provenance
  resources x u hu := by
    rw [getElem?_setResources] at hu
    split at hu
    · rename_i hxn
      cases hu
      exact ⟨hxn ▸ hx, hr⟩
    · exact h.resources x u hu

theorem forgetResources (h : s.Inside V) (name : String) : (s.forgetResources name).Inside V where
  states := h.states
  loans := h.loans
  provenance := h.provenance
  resources x u hu := by
    rw [getElem?_forgetResources] at hu
    split at hu
    · cases hu
    · exact h.resources x u hu

/-- Resources of a point grow older, up to the limit. -/
theorem mint (h : s.Inside V) (hx : name ∈ V.bindings) {origin : Location}
    (ho : origin ∈ V.makers) : (s.mint name origin V.limit).Inside V where
  states := h.states
  loans := h.loans
  provenance := h.provenance
  resources x u hu := by
    rw [getElem?_mint] at hu
    split at hu
    · rename_i hxn
      cases hu
      refine ⟨hxn ▸ hx, fun r hr => ?_⟩
      have hr : { origin } = r := by simpa using hr
      subst hr
      exact ⟨ho, Int.le_refl 0, Int.natCast_nonneg V.limit⟩
    · obtain ⟨held, hheld, rfl⟩ := Option.map_eq_some_iff.mp hu
      obtain ⟨hx', hres⟩ := h.resources x held hheld
      refine ⟨hx', fun r hr => ?_⟩
      obtain ⟨q, hq, rfl⟩ := mem_ageResources.mp hr
      obtain ⟨hqo, hqy, hql⟩ := hres q hq
      split
      · exact ⟨hqo, by simp only [Resource.aged]; omega, by simp only [Resource.aged]; omega⟩
      · exact ⟨hqo, hqy, hql⟩

theorem provenanceOf (h : s.Inside V) (x : String) : ∀ lt ∈ s.provenanceOf x, lt ∈ V.lifetimes := by
  intro lt hlt
  obtain ⟨u, hu, hlt⟩ := mem_getD_iff.mp hlt
  exact (h.provenance x u hu).2 lt hlt

theorem retarget (h : s.Inside V) (holder : Option String) (hx : name ∈ V.bindings) :
    ∀ l ∈ (s.loansHeldBy holder).retarget (some name), V.HasLoan l := by
  intro l hl
  obtain ⟨m, hm, rfl⟩ := Loans.mem_retarget.mp hl
  obtain ⟨hp, -, ho⟩ := h.loans m (mem_loansHeldBy.mp hm).1
  exact ⟨hp, by simpa using hx, ho⟩

theorem defineRef (h : s.Inside V) (hx : name ∈ V.bindings) : (s.defineRef name).Inside V :=
  ((h.keepLoans _).setState hx _).forgetProvenance name

theorem declare (h : s.Inside V) (hx : name ∈ V.bindings) : (s.declare name).Inside V :=
  (((h.setState hx _).keepLoans _).forgetProvenance name).forgetResources name

theorem drop (h : s.Inside V) (hx : name ∈ V.bindings) : (s.drop name).Inside V :=
  ((h.setState hx _).forgetProvenance name).forgetResources name

theorem merge (hs : s.Inside V) (ht : t.Inside V) : (s.merge t).Inside V where
  states x hx := ((mem_states_merge s t).mp hx).elim (hs.states x) (ht.states x)
  loans l hl := (Loans.mem_join.mp hl).elim (hs.loans l) (ht.loans l)
  provenance := unite_within hs.provenance ht.provenance
  resources := unite_within hs.resources ht.resources

end FlowState.Inside

structure Vocabulary.Speaks (V : Vocabulary) (c : Site) : Prop where
  bindings : ∀ x, c.function.bindings.contains x = true → x ∈ V.bindings
  limit : V.limit = c.function.bindings.size

namespace Site
variable {V : Vocabulary} {c : Site} {s t : FlowState} {name : String}

theorem renew_inside (hc : V.Speaks c) (hp : c.location ∈ V.points) (h : s.Inside V)
    (hx : name ∈ V.bindings) (tracks : Bool) : (c.renew name tracks s).Inside V := by
  cases tracks with
  | false => exact h
  | true =>
    rw [renew, if_pos rfl, mint, ← hc.limit]
    exact h.mint hx (List.mem_append_left _ hp)

theorem write_inside (hc : V.Speaks c) (hp : c.location ∈ V.points) (h : s.Inside V)
    (hx : name ∈ V.bindings) {v : Option Violation} (hrun : (c.write name).run s = .ok v t) :
    t.Inside V := by
  cases v with
  | some v => exact (write_some_inv hrun).1 ▸ h
  | none =>
    obtain ⟨-, tracks, -, rfl⟩ := write_none_iff.mp hrun
    exact renew_inside hc hp h hx tracks

theorem writeThrough_inside (hc : V.Speaks c) (hp : c.location ∈ V.points) (h : s.Inside V)
    (hx : name ∈ V.bindings) {v : Option Violation} (hrun : (c.writeThrough name).run s = .ok v t) :
    t.Inside V := by
  obtain ⟨rfl, -⟩ | hw := writeThrough_inv hrun
  · exact h
  · exact write_inside hc hp h hx hw

theorem moveOut_inside (h : s.Inside V) (hx : name ∈ V.bindings) {v : Option Violation}
    (hrun : (c.moveOut name).run s = .ok v t) : t.Inside V := by
  obtain ⟨-, -, rfl⟩ | ⟨-, -, rfl, -⟩ | ⟨-, -, rfl, -⟩ := moveOut_inv hrun
  · exact h
  · exact h
  · exact h.setState hx _

theorem borrow_inside (hp : c.location ∈ V.points) (h : s.Inside V) (hx : name ∈ V.bindings)
    {kind : LoanKind} {ref : String} (href : ref ∈ V.bindings) {v : Option Violation}
    (hrun : (c.borrow name kind ref).run s = .ok v t) : t.Inside V := by
  obtain ⟨b, through, -, -, ⟨w, -, -, rfl⟩ | ⟨loan, hg, -, rfl⟩⟩ := borrow_iff.mp hrun
  · exact h.defineRef href
  · obtain ⟨-, -, -, rfl⟩ := FlowState.checkBorrow_ok_iff.mp hg
    have hloan : V.HasLoan { place := name, kind, ref := some ref, origin := c.location } :=
      ⟨hx, by simpa using href, hp⟩
    have hdef := (h.defineRef href).addLoan hloan c.span
    cases through with
    | false => exact (hdef.addLoans (by simp)).setProvenance href (by simp)
    | true => exact (hdef.addLoans (h.retarget _ href)).setProvenance href (h.provenanceOf name)

theorem lend_inside (hp : c.location ∈ V.points) (h : s.Inside V) (hx : name ∈ V.bindings)
    {kind : LoanKind} {mutable : Bool} {result : Except Violation Loan}
    (hrun : (c.lend name kind mutable).run s = .ok result t) :
    t.Inside V ∧ ∀ loan, result = .ok loan → V.HasLoan loan := by
  obtain ⟨hr, rfl⟩ := lend_iff.mp hrun
  cases result with
  | error w => exact ⟨h, nofun⟩
  | ok loan =>
    obtain ⟨-, -, -, rfl⟩ := FlowState.checkBorrow_ok_iff.mp hr.symm
    have hloan :
        V.HasLoan { place := name, kind, ref := none, origin := c.location, temporary := true } :=
      ⟨hx, by simp, hp⟩
    refine ⟨h.addLoan hloan c.span, ?_⟩
    rintro _ ⟨⟩
    exact hloan

theorem store_inside (hc : V.Speaks c) (hp : c.location ∈ V.points) (h : s.Inside V)
    (hx : name ∈ V.bindings) {v : Option Violation} (hrun : (c.store name).run s = .ok v t) :
    t.Inside V := by
  cases v with
  | some v => exact (store_some_inv hrun).1 ▸ h
  | none =>
    obtain ⟨-, -, isRef, tracks, -, -, rfl⟩ := store_none_iff.mp hrun
    unfold given
    split
    · exact (h.defineRef hx).setProvenance hx (by simp)
    · split
      · exact (renew_inside hc hp h hx tracks).setState hx _
      · exact renew_inside hc hp (h.setState hx _) hx tracks

theorem transfer_inside (h : s.Inside V) {dest source : String} (hx : dest ∈ V.bindings)
    {moved : Bool} (hrun : (c.transfer dest source moved).run s = .ok () t) : t.Inside V := by
  obtain ⟨toRef, -, -, rfl⟩ | ⟨tracks, -, -, ⟨-, rfl⟩ | ⟨-, takes, -, rfl⟩⟩ := transfer_iff.mp hrun
  · unfold carryLoans
    have hkept : (if moved = true then s.killLoansHeldBy [some source] else s).Inside V := by
      split
      · exact h.keepLoans _
      · exact h
    dsimp only
    split
    · exact (hkept.addLoans (h.retarget _ hx)).setProvenance hx (h.provenanceOf source)
    · exact hkept
  · exact h
  · split
    · unfold carryResources
      have hkept : (if moved = true then s.forgetResources source else s).Inside V := by
        split
        · exact h.forgetResources _
        · exact h
      dsimp only
      split
      · exact hkept
      · rename_i held hheld
        exact hkept.setResources hx (h.resources source held hheld).2
    · exact h

theorem assign_inside (hc : V.Speaks c) (hp : c.location ∈ V.points) (h : s.Inside V)
    {dest : String} (hx : dest ∈ V.bindings) {source : Option String}
    (hs : ∀ x ∈ source, x ∈ V.bindings) {vs : List Violation}
    (hrun : (c.assign dest source).run s = .ok vs t) : t.Inside V := by
  cases source with
  | none =>
    obtain ⟨refused, hr, -⟩ := assign_none_iff.mp hrun
    exact store_inside hc hp h hx hr
  | some source =>
    obtain ⟨dup, taken, u, refused, w, -, hm, hr, -, hcarry⟩ := assign_some_iff.mp hrun
    have hw := store_inside hc hp (moveOut_inside h (hs source rfl) hm) hx hr
    obtain ⟨-, ht⟩ | ⟨-, rfl⟩ := hcarry
    · exact transfer_inside hw hx ht
    · exact hw

theorem copy_inside (hc : V.Speaks c) (hp : c.location ∈ V.points) (h : s.Inside V)
    {dest source : String} (hx : dest ∈ V.bindings) {vs : List Violation}
    (hrun : (c.copy dest source).run s = .ok vs t) : t.Inside V := by
  obtain ⟨invalid, -, hrun⟩ := copy_iff.mp hrun
  obtain ⟨refused, w, hr, -, hcopy⟩ := copyTyped_iff.mp hrun
  have hw := store_inside hc hp h hx hr
  obtain ⟨-, u, tracks, ht, -, rfl⟩ | ⟨-, rfl⟩ := hcopy
  · exact renew_inside hc hp (transfer_inside hw hx ht) hx tracks
  · exact hw

theorem dropScope_inside (hc : V.Speaks c) (h : s.Inside V) {scope : String} {vs : List Violation}
    (hrun : (c.dropScope scope).run s = .ok vs t) : t.Inside V := by
  obtain ⟨-, rfl⟩ := dropScope_iff.mp hrun
  refine List.foldlRecOn (motive := FlowState.Inside V) _ _ (h.keepLoans _) fun u hu x hx =>
    hu.drop (hc.bindings x ?_)
  obtain ⟨b, hb, rfl⟩ := List.mem_map.mp hx
  exact Registry.contains_iff_mem_names.mpr (List.mem_map_of_mem (List.mem_filter.mp hb).1)

end Site

namespace Checker
variable {V : Vocabulary} {k : Checker} {c : Site} {s t : FlowState}

def Passed.Inside (V : Vocabulary) (p : Passed) : Prop :=
  ∀ (arg : String) (loan : Loan), p.lent[arg]? = some loan → V.HasLoan loan

theorem pass_inside (hp : c.location ∈ V.points) (h : s.Inside V) {p q : Passed}
    (hpassed : Passed.Inside V p) {arg callee : String} (hx : arg ∈ V.bindings) {m : Manner}
    (hrun : (m.pass c callee p arg).run s = .ok q t) :
    t.Inside V ∧ Passed.Inside V q := by
  cases m with
  | value =>
    obtain ⟨v, hm, rfl⟩ | ⟨hm, rfl⟩ := passValue_iff.mp hrun
    · exact ⟨Site.moveOut_inside h hx hm, hpassed⟩
    · exact ⟨Site.moveOut_inside h hx hm, hpassed⟩
  | reference exclusive =>
    obtain ⟨v, -, rfl, rfl⟩ | ⟨-, writes, -,
        ⟨-, -, rfl, rfl⟩ | ⟨-, ⟨v, hl, rfl⟩ | ⟨loan, hl, rfl⟩⟩⟩ :=
      passReference_iff.mp hrun
    · exact ⟨h, hpassed⟩
    · exact ⟨h, hpassed⟩
    · exact ⟨(Site.lend_inside hp h hx hl).1, hpassed⟩
    · exact ⟨(Site.lend_inside hp h hx hl).1, hpassed⟩
  | owner exclusive =>
    obtain ⟨b, -, ⟨v, hl, rfl⟩ | ⟨loan, hl, rfl⟩⟩ := passOwner_iff.mp hrun
    · exact ⟨(Site.lend_inside hp h hx hl).1, hpassed⟩
    · obtain ⟨ht, hloan⟩ := Site.lend_inside hp h hx hl
      refine ⟨ht, fun x l hl' => ?_⟩
      rw [Passed.addLent, ExtTreeMap.getElem?_insert] at hl'
      split at hl'
      · cases hl'
        exact hloan loan rfl
      · exact hpassed x l hl'

theorem passAll_inside (hp : c.location ∈ V.points) {callee : String} (args : List (String × Param))
    (hargs : ∀ e ∈ args, e.1 ∈ V.bindings) {p q : Passed} (h : s.Inside V)
    (hpassed : Passed.Inside V p)
    (hrun : (k.passAll c callee args p).run s = .ok q t) : t.Inside V ∧ Passed.Inside V q := by
  induction args generalizing s p with
  | nil => cases hrun; exact ⟨h, hpassed⟩
  | cons e args ih =>
    obtain ⟨hx, hargs⟩ := List.forall_mem_cons.mp hargs
    obtain ⟨m, p', u, -, hm, hrest⟩ := passAll_cons_iff.mp hrun
    obtain ⟨hu, hp'⟩ := pass_inside hp h hpassed hx hm
    exact ih hargs hu hp' hrest

def InheritsInside (V : Vocabulary) (inherited : Loans × Names) : Prop :=
  (∀ l ∈ inherited.1, V.HasLoan l) ∧ ∀ lt ∈ inherited.2, lt ∈ V.lifetimes

theorem inherit_inside (h : s.Inside V) {p : Passed} (hpassed : Passed.Inside V p)
    {dest arg : String} (hx : dest ∈ V.bindings) {acc result : Loans × Names}
    (hacc : InheritsInside V acc)
    (hrun : inherit c s p dest acc arg = .ok result) : InheritsInside V result := by
  unfold inherit at hrun
  split at hrun
  · rename_i loan hloan
    cases hrun
    refine ⟨fun l hl => ?_, hacc.2⟩
    rcases Loans.mem_add.mp hl with rfl | hl
    · obtain ⟨hplace, -, horigin⟩ := hpassed arg loan hloan
      exact ⟨hplace, by simpa using hx, horigin⟩
    · exact hacc.1 l hl
  · obtain ⟨isRef, -, hrun⟩ := Except.bind_inv hrun
    cases isRef with
    | false => cases hrun; exact hacc
    | true =>
      cases hrun
      refine ⟨fun l hl => ?_, fun lt hlt => ?_⟩
      · exact (Loans.mem_join.mp hl).elim (hacc.1 l) (h.retarget _ hx l)
      · exact (ExtTreeSet.mem_union_iff.mp hlt).elim (hacc.2 lt) (h.provenanceOf arg lt)

theorem inheritAll_inside (h : s.Inside V) {p : Passed} (hpassed : Passed.Inside V p)
    {sig : Signature} {call : Call} {dest : String} (hx : dest ∈ V.bindings)
    {result : Loans × Names}
    (hrun : inheritAll c sig call p dest s = .ok result) : InheritsInside V result := by
  have hempty : InheritsInside V (∅, ∅) := ⟨by simp, by simp⟩
  obtain ⟨isRef, -, hrun⟩ := Except.bind_inv hrun
  cases isRef with
  | false => cases hrun; exact hempty
  | true =>
    obtain ⟨args, -, hrun⟩ := Except.bind_inv hrun
    exact Except.foldlM_invariant (fun arg _ u v => inherit_inside h hpassed hx) hempty hrun

theorem applyCall_inside (hc : V.Speaks c) (hp : c.location ∈ V.points) (h : s.Inside V)
    {call : Call} (hargs : ∀ x ∈ call.args, x ∈ V.bindings)
    (hdest : ∀ x ∈ call.dest, x ∈ V.bindings) {vs : List Violation}
    (hrun : (k.applyCall c call).run s = .ok vs t) : t.Inside V := by
  obtain ⟨sig, passed, u, -, hpass, hrest⟩ := applyCall_iff.mp hrun
  have hzip : ∀ e ∈ call.args.zip sig.params, e.1 ∈ V.bindings := fun e he =>
    hargs e.1 (List.of_mem_zip he).1
  obtain ⟨hu, hpassed⟩ := passAll_inside hp _ hzip h (by intro arg loan hl; simp at hl) hpass
  obtain ⟨-, -, rfl⟩ | ⟨dest, inherited, ws, hd, hi, hr, -⟩ := hrest
  · exact hu.keepLoans _
  · have hx := hdest dest hd
    obtain ⟨refused, w, isRef, hgive, -, -, rfl⟩ := receive_iff.mp hr
    have hw := Site.store_inside hc hp (hu.keepLoans _) hx hgive
    obtain ⟨hloans, hlts⟩ := inheritAll_inside hu hpassed hx hi
    split
    · exact (hw.addLoans hloans).setProvenance hx hlts
    · exact hw

theorem applyOp_inside (hc : V.Speaks c) (hp : c.location ∈ V.points) (h : s.Inside V) {op : Op}
    (huses : ∀ x ∈ op.uses, x ∈ V.bindings) (hdefs : ∀ x ∈ op.defs, x ∈ V.bindings)
    {vs : List Violation} (hrun : (k.applyOp c op).run s = .ok vs t) : t.Inside V := by
  cases op with
  | declare x => cases hrun; exact h.declare (hdefs x (by simp [Op.defs, Op.defined?]))
  | init x source =>
    exact Site.assign_inside hc hp h (hdefs x (by simp [Op.defs, Op.defined?]))
      (fun y hy => huses y (by simpa [Op.uses] using hy)) hrun
  | move dest source =>
    change (c.assign dest (some source)).run s = .ok vs t at hrun
    refine Site.assign_inside hc hp h (hdefs dest (by simp [Op.defs, Op.defined?])) ?_ hrun
    rintro _ ⟨⟩
    exact huses source (by simp [Op.uses])
  | copy dest source =>
    exact Site.copy_inside hc hp h (hdefs dest (by simp [Op.defs, Op.defined?])) hrun
  | borrow x kind ref =>
    obtain ⟨v, hb, -⟩ := run_toList_iff.mp hrun
    exact Site.borrow_inside hp h (huses x (by simp [Op.uses]))
      (hdefs ref (by simp [Op.defs, Op.defined?])) hb
  | use x => cases hrun; exact h
  | write target value =>
    have hx := huses target (by simp [Op.uses])
    cases value with
    | none =>
      obtain ⟨v, hw, -⟩ := run_toList_iff.mp hrun
      exact Site.writeThrough_inside hc hp h hx hw
    | some value =>
      obtain ⟨taken, u, refused, hm, hw, -⟩ := applyOp_write_some_iff.mp hrun
      exact Site.writeThrough_inside hc hp
        (Site.moveOut_inside h (huses value (by simp [Op.uses])) hm) hx hw
  | call call =>
    refine applyCall_inside hc hp h (fun x hx => huses x (by simpa [Op.uses] using hx)) ?_ hrun
    exact fun x hx => hdefs x (by simpa [Op.defs, Op.defined?] using hx)
  | endScope scope => exact Site.dropScope_inside hc h hrun
  | unsupported name => cases hrun

theorem applyTerminator_inside (h : s.Inside V) {terminator : Option Terminator}
    (huses : ∀ e ∈ terminator, ∀ x ∈ e.uses, x ∈ V.bindings) {vs : List Violation}
    (hrun : (applyTerminator c terminator).run s = .ok vs t) : t.Inside V := by
  cases terminator with
  | none => cases hrun
  | some terminator =>
    have huses := huses terminator rfl
    cases terminator with
    | jump target => cases hrun; exact h
    | branch l m cond => cases cond <;> cases hrun <;> exact h
    | ret value =>
      cases value with
      | none => cases hrun; exact h
      | some value =>
        obtain ⟨-, rfl, -⟩ | ⟨-, taken, hm, -⟩ := applyReturn_iff.mp hrun
        · exact h
        · exact Site.moveOut_inside h (huses value (by simp [Terminator.uses])) hm
    | unsupported name => cases hrun

end Checker

namespace Function
variable (f : Function) (types : TypeTable)

def points : List Location :=
  f.blocks.entries.flatMap fun b => (List.range b.body.length).map fun i : Nat =>
    ⟨f.name, b.label, i⟩

def lifetimesOf (p : Param) : List String :=
  match Lifetime.ofParam? types p with
  | .ok (some lt) => lt.toList
  | _ => []

def vocabulary : Vocabulary where
  bindings := f.bindings.names
  points := f.points
  outside := (List.range f.signature.params.length).map fun i : Nat => ⟨f.name, "<param>", i⟩
  lifetimes := f.signature.params.flatMap (lifetimesOf types)
  limit := f.bindings.size

theorem length_points : f.points.length = f.instructions.length := by
  simp [points, instructions, List.length_flatMap]

theorem length_lifetimesOf (p : Param) : (lifetimesOf types p).length ≤ 1 := by
  unfold lifetimesOf
  split
  · rename_i lt h
    obtain ⟨d, -, h⟩ := Except.bind_inv h
    have hone : ∀ x : String, ({x} : Names).toList.length = 1 := by
      intro x
      rw [ExtTreeSet.length_toList]
      rfl
    split at h
    · rename_i tag
      split at h
      · cases h; exact Nat.le_of_eq (hone _)
      · split at h
        · cases h
          simp [Lifetime.static]
        · cases h; exact Nat.le_of_eq (hone _)
    · cases h
  · simp

theorem length_flatMap_lifetimesOf (ps : List Param) :
    (ps.flatMap (lifetimesOf types)).length ≤ ps.length := by
  induction ps with
  | nil => simp
  | cons p ps ih =>
    have hp := length_lifetimesOf types p
    rw [List.flatMap_cons, List.length_append, List.length_cons]
    omega

/-- The height that the analysis reckons with is enough. -/
theorem length_facts_le_height : (f.vocabulary types).facts.length ≤ Checker.height f := by
  have hpoints : (f.vocabulary types).points.length = f.instructions.length := f.length_points
  have hbindings : (f.vocabulary types).bindings.length = f.bindings.size := List.length_map _
  have hlts : (f.vocabulary types).lifetimes.length ≤ f.signature.params.length :=
    length_flatMap_lifetimesOf types f.signature.params
  have houtside : (f.vocabulary types).outside.length = f.signature.params.length := by
    simp [vocabulary]
  have hlimit : (f.vocabulary types).limit = f.bindings.size := rfl
  rw [Vocabulary.length_facts, hpoints, hbindings, houtside, hlimit]
  generalize (f.vocabulary types).lifetimes.length = lts at hlts
  unfold Checker.height
  dsimp only
  generalize f.bindings.size = b
  generalize f.instructions.length = i
  generalize f.signature.params.length = p at hlts
  have hstates : b * 4 = 4 * b := Nat.mul_comm b 4
  have hloans : b * ((b + 1) * (i * 4)) ≤ 4 * b * (b + 1) * (i + p) :=
    calc b * ((b + 1) * (i * 4)) = 4 * b * (b + 1) * i := by
          simp only [Nat.mul_comm, Nat.mul_left_comm]
      _ ≤ 4 * b * (b + 1) * (i + p) := Nat.mul_le_mul_left _ (Nat.le_add_right i p)
  have hfrom : b * (lts + 1) ≤ b * (p + 1) := Nat.mul_le_mul_left b (Nat.succ_le_succ hlts)
  omega

variable {f types}

theorem mem_points {b : Block} (hb : b ∈ f.blocks.entries) {n : Nat} (hn : n < b.body.length) :
    (⟨f.name, b.label, n⟩ : Location) ∈ f.points :=
  List.mem_flatMap.mpr ⟨b, hb, List.mem_map.mpr ⟨n, List.mem_range.mpr hn, rfl⟩⟩

end Function

namespace Checker
variable {k : Checker} {f : Function} {r : Regions} {s t : FlowState}

theorem speaks_site (b : Block) (n : Int) (span : Span) :
    (f.vocabulary k.types).Speaks (k.site f r b n span) where
  bindings _ hx := Registry.contains_iff_mem_names.mp hx
  limit := rfl

/-- A parameter has a value when the function starts. It comes with its lifetime if it is a
reference, and else with a resource unless its values may be duplicated. -/
theorem bindParam_inv {p : Param} (hrun : k.bindParam f s p = .ok t) :
    (∃ lt, Lifetime.ofParam? k.types p = .ok (some lt) ∧
      t = (s.setState p.name .owned).setProvenance p.name lt) ∨
    Lifetime.ofParam? k.types p = .ok none ∧
    (k.types.isDuplicable p.type = .ok true ∧ t = s.setState p.name .owned ∨
      k.types.isDuplicable p.type = .ok false ∧ t = (s.setState p.name .owned).setResources p.name
        {{ origin := ⟨f.name, "<param>", (f.signature.params.map Param.name).idxOf p.name⟩ }}) := by
  obtain ⟨lt, hlt, hrun⟩ := Except.bind_inv hrun
  cases lt with
  | some lt =>
    cases hrun
    exact Or.inl ⟨lt, hlt, rfl⟩
  | none =>
    obtain ⟨dup, hdup, hrun⟩ := Except.bind_inv hrun
    refine Or.inr ⟨hlt, ?_⟩
    cases dup with
    | true =>
      cases hrun
      exact Or.inl ⟨hdup, rfl⟩
    | false =>
      cases hrun
      exact Or.inr ⟨hdup, rfl⟩

theorem bindParam_inside {p : Param} (hp : p ∈ f.signature.params)
    (hs : s.Inside (f.vocabulary k.types)) (hrun : k.bindParam f s p = .ok t) :
    t.Inside (f.vocabulary k.types) := by
  have hx : p.name ∈ (f.vocabulary k.types).bindings :=
    Registry.contains_iff_mem_names.mp (f.params_bound p hp)
  have hs' := hs.setState hx .owned
  obtain ⟨lt, hlt, rfl⟩ | ⟨-, ⟨-, rfl⟩ | ⟨-, rfl⟩⟩ := bindParam_inv hrun
  · refine hs'.setProvenance hx fun l hl => List.mem_flatMap.mpr ⟨p, hp, ?_⟩
    rw [Function.lifetimesOf, hlt]
    exact ExtTreeSet.mem_toList.mpr hl
  · exact hs'
  · refine hs'.setResources hx fun q hq => ?_
    have hq := (by simpa using hq : _ = q)
    subst hq
    have hidx : (f.signature.params.map Param.name).idxOf p.name < f.signature.params.length := by
      have := List.idxOf_lt_length_iff.mpr (List.mem_map_of_mem (f := Param.name) hp)
      rwa [List.length_map] at this
    refine ⟨List.mem_append_right _ (List.mem_map.mpr ⟨_, List.mem_range.mpr hidx, rfl⟩),
      Int.le_refl 0, ?_⟩
    exact Int.natCast_nonneg _

/-- The state when the function starts is inside its universe. -/
theorem entryState_inside (hrun : k.entryState f = .ok s) : s.Inside (f.vocabulary k.types) := by
  refine Except.foldlM_invariant (fun p hp u v => bindParam_inside hp) ⟨?_, ?_, ?_, ?_⟩ hrun <;>
    simp

theorem applyInstruction_inside {b : Block} (hb : b ∈ f.blocks.entries)
    (hfit : b.Fits f k.types (k.signaturesFor f)) {done rest : List Instruction} {i : Instruction}
    (hbody : b.body = done ++ i :: rest) (hs : s.Inside (f.vocabulary k.types)) {e : Event}
    (hrun : (k.applyInstruction r (k.site f r b done.length i.span) i).run s = .ok e t) :
    t.Inside (f.vocabulary k.types) := by
  obtain ⟨vs, w, hop, -, rfl⟩ := applyInstruction_iff.mp hrun
  have hnames : ∀ x, f.bindings.contains x = true →
      x ∈ (f.vocabulary k.types).bindings := fun x hx =>
    Registry.contains_iff_mem_names.mp hx
  have hi := hfit.body i (by rw [hbody]; simp)
  have hpoint : (⟨f.name, b.label, done.length⟩ : Location) ∈ (f.vocabulary k.types).points :=
    Function.mem_points hb (by rw [hbody]; simp)
  have hw := applyOp_inside (speaks_site b done.length i.span) hpoint hs
    (fun x hx => hnames x (hi.uses x hx)) (fun x hx => hnames x (hi.defs x hx)) hop
  exact hw.keepLoans _

/-- A block keeps flow states inside the universe of its function. -/
theorem applyFrom_inside {b : Block} (hb : b ∈ f.blocks.entries)
    (hfit : b.Fits f k.types (k.signaturesFor f)) (done rest : List Instruction)
    (hbody : b.body = done ++ rest) (hs : s.Inside (f.vocabulary k.types))
    {es : List Event} (hrun : (k.applyFrom f r b done.length rest).run s = .ok es t) :
    t.Inside (f.vocabulary k.types) := by
  induction rest generalizing done s es with
  | nil =>
    obtain ⟨e, he, -⟩ := applyFrom_nil_iff.mp hrun
    obtain ⟨vs, u, hterm, -, rfl⟩ := applyEnding_iff.mp he
    obtain ⟨ending, hending, hefit⟩ := hfit.ending
    refine (applyTerminator_inside hs ?_ hterm).keepLoans _
    rw [hending]
    rintro _ ⟨⟩ x hx
    exact Registry.contains_iff_mem_names.mp (hefit.uses x hx)
  | cons i rest ih =>
    obtain ⟨e, u, es', he, hrest, -⟩ := applyFrom_cons_iff.mp hrun
    have hu := applyInstruction_inside hb hfit hbody hs he
    have hlen : ((done ++ [i]).length : Int) = done.length + 1 := by simp
    rw [← hlen] at hrest
    exact ih (done ++ [i]) (by simp [hbody]) hu hrest

theorem transferBlock_inside (hfit : f.Fits k.types (k.signaturesFor f)) {label : String}
    {es : List Event} (hs : s.Inside (f.vocabulary k.types))
    (hrun : k.transferBlock f r label s = .ok (t, es)) :
    t.Inside (f.vocabulary k.types) := by
  obtain ⟨b, hb, hrun⟩ := transferBlock_iff.mp hrun
  have hmem := Registry.mem_of_get?_eq_some hb
  exact applyFrom_inside hmem (hfit.blocks b hmem) [] b.body rfl hs hrun

end Checker

end Ownership

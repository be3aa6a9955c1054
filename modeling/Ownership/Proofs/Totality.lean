import Ownership.Proofs.Inside
import Ownership.Proofs.Types

/-! # The analysis never breaks off

If the types that a well-formed function mentions are defined, every look-up of the analysis
succeeds: each operation has a result from every state, and each terminator from every state that
speaks of the function's own bindings.
-/
namespace Ownership
open Std

namespace Access
variable {α β : Type}

def Total (x : Access α) : Prop := ∀ s, ∃ a t, x.run s = .ok a t

theorem Total.pure (a : α) : (pure a : Access α).Total := fun s => ⟨a, s, rfl⟩

theorem Total.bind {x : Access α} {g : α → Access β} (hx : x.Total) (hg : ∀ a, (g a).Total) :
    (x >>= g).Total := by
  intro s
  obtain ⟨a, t, hrun⟩ := hx s
  obtain ⟨b, u, hrun'⟩ := hg a t
  exact ⟨b, u, (run_bind_of_ok hrun).trans hrun'⟩

theorem Total.lift {x : Except Fault α} (hx : ∃ a, x = .ok a) : (liftM x : Access α).Total := by
  obtain ⟨a, rfl⟩ := hx
  exact fun s => ⟨a, s, rfl⟩

theorem Total.get : (get : Access FlowState).Total := fun s => ⟨s, s, rfl⟩

theorem Total.modify (g : FlowState → FlowState) : (modify g : Access Unit).Total := fun s =>
    ⟨(), g s, rfl⟩

theorem Total.toList {x : Access (Option Violation)} (hx : x.Total) :
    (do return (← x).toList : Access (List Violation)).Total := hx.bind fun v => .pure v.toList

end Access

namespace Except
variable {α β : Type}

theorem bind_total {x : Except Fault α} {g : α → Except Fault β} (hx : ∃ a, x = .ok a)
    (hg : ∀ a, ∃ b, g a = .ok b) : ∃ b, (x >>= g) = .ok b := by
  obtain ⟨a, ha⟩ := hx
  obtain ⟨b, hb⟩ := hg a
  exact ⟨b, (bind_of_ok ha).trans hb⟩

theorem foldlM_total {g : β → α → Except Fault β} (l : List α)
    (h : ∀ a ∈ l, ∀ b, ∃ b', g b a = .ok b') (b : β) : ∃ b', l.foldlM g b = .ok b' := by
  induction l generalizing b with
  | nil => exact ⟨b, rfl⟩
  | cons a l ih =>
    obtain ⟨ha, hl⟩ := List.forall_mem_cons.mp h
    rw [List.foldlM_cons]
    exact bind_total (ha b) fun b' => ih hl b'

theorem filterM_total {p : α → Except Fault Bool} (l : List α)
    (h : ∀ a ∈ l, ∃ keep, p a = .ok keep) : ∃ kept, l.filterM p = .ok kept := by
  have haux : ∀ (l acc : List α), (∀ a ∈ l, ∃ keep, p a = .ok keep) →
      ∃ kept, l.filterAuxM p acc = .ok kept := by
    intro l
    induction l with
    | nil => exact fun acc _ => ⟨acc, rfl⟩
    | cons a l ih =>
      intro acc h
      obtain ⟨ha, hl⟩ := List.forall_mem_cons.mp h
      exact bind_total ha fun keep => ih _ hl
  exact bind_total (haux l [] h) fun kept => ⟨kept.reverse, rfl⟩

theorem filterMapM_total {g : α → Except Fault (Option β)} (l : List α)
    (h : ∀ a ∈ l, ∃ b, g a = .ok b) : ∃ kept, l.filterMapM g = .ok kept := by
  have haux : ∀ (l : List α) (acc : List β), (∀ a ∈ l, ∃ b, g a = .ok b) →
      ∃ kept, List.filterMapM.loop g l acc = .ok kept := by
    intro l
    induction l with
    | nil => exact fun acc _ => ⟨acc.reverse, rfl⟩
    | cons a l ih =>
      intro acc h
      obtain ⟨ha, hl⟩ := List.forall_mem_cons.mp h
      refine bind_total ha fun b => ?_
      cases b with
      | none => exact ih acc hl
      | some b => exact ih (b :: acc) hl
  exact haux l [] h

theorem mem_of_filterMapM {g : α → Except Fault (Option β)} {l : List α} {kept : List β}
    (h : l.filterMapM g = .ok kept) : ∀ b ∈ kept, ∃ a ∈ l, g a = .ok (some b) := by
  have haux : ∀ (l : List α) (acc : List β), List.filterMapM.loop g l acc = .ok kept →
      ∀ b ∈ kept, b ∈ acc ∨ ∃ a ∈ l, g a = .ok (some b) := by
    intro l
    induction l with
    | nil =>
      intro acc h b hb
      cases h
      exact Or.inl (List.mem_reverse.mp hb)
    | cons a l ih =>
      intro acc h b hb
      obtain ⟨found, ha, h⟩ := bind_inv h
      cases found with
      | none =>
        rcases ih acc h b hb with hacc | ⟨a', ha', hg⟩
        · exact Or.inl hacc
        · exact Or.inr ⟨a', List.mem_cons_of_mem _ ha', hg⟩
      | some b' =>
        rcases ih (b' :: acc) h b hb with hacc | ⟨a', ha', hg⟩
        · rcases List.mem_cons.mp hacc with rfl | hacc
          · exact Or.inr ⟨a, List.mem_cons_self, ha⟩
          · exact Or.inl hacc
        · exact Or.inr ⟨a', List.mem_cons_of_mem _ ha', hg⟩
  intro b hb
  exact (haux l [] h b hb).resolve_left (by simp)

end Except

structure Site.Typed (c : Site) : Prop where
  bindings : ∀ x, c.function.bindings.contains x = true →
    ∃ b, c.function.binding x = .ok b ∧ c.types.Grounded b.type

namespace Site
variable {c : Site} (hc : c.Typed) {name : String} (hx : c.function.bindings.contains name = true)
include hc hx

theorem isRef_total : ∃ isRef, c.isRef name = .ok isRef := by
  obtain ⟨b, hb, htype⟩ := hc.bindings name hx
  obtain ⟨d, hd⟩ := htype.defines
  refine ⟨d.isRef, ?_⟩
  rw [isRef, hb]
  exact Except.bind_of_ok hd

theorem isExclusiveRef_total : ∃ exclusive, c.isExclusiveRef name = .ok exclusive := by
  obtain ⟨b, hb, htype⟩ := hc.bindings name hx
  obtain ⟨d, hd⟩ := htype.defines
  refine ⟨d.isExclusiveRef, ?_⟩
  rw [isExclusiveRef, hb]
  exact Except.bind_of_ok hd

theorem isDuplicable_total : ∃ dup, c.isDuplicable name = .ok dup := by
  obtain ⟨b, hb, htype⟩ := hc.bindings name hx
  obtain ⟨dup, hdup⟩ := TypeTable.isDuplicable_total htype
  exact ⟨dup, by rw [isDuplicable, hb]; exact hdup⟩

theorem tracksResource_total : ∃ tracks, c.tracksResource name = .ok tracks := by
  refine Except.bind_total (isRef_total hc hx) fun isRef => ?_
  cases isRef with
  | true => exact ⟨false, rfl⟩
  | false => exact Except.bind_total (isDuplicable_total hc hx) fun dup => ⟨!dup, rfl⟩

theorem binding_total : ∃ b, c.function.binding name = .ok b := by
  obtain ⟨b, hb, -⟩ := hc.bindings name hx
  exact ⟨b, hb⟩

theorem moveOut_total : (c.moveOut name).Total := by
  refine .bind (.lift (isDuplicable_total hc hx)) fun dup => ?_
  cases dup with
  | true => exact fun s => ⟨_, _, rfl⟩
  | false =>
    intro s
    simp only [Bool.false_eq_true, ↓reduceIte, EStateM.run_bind, EStateM.run_get]
    split
    · exact ⟨_, _, rfl⟩
    · simp only [EStateM.run_bind, EStateM.run_set]
      split <;> exact ⟨_, _, rfl⟩

theorem write_total : (c.write name).Total := by
  intro s
  obtain ⟨b, hb⟩ := binding_total hc hx
  obtain ⟨tracks, ht⟩ := tracksResource_total hc hx
  by_cases hs : s.stateOf name = .owned
  · rcases refused_or_writable hb hs with hbad | hw
    · obtain ⟨v, hw, -⟩ := write_refused hb hs hbad
      exact ⟨_, _, hw⟩
    · exact ⟨_, _, write_none_iff.mpr ⟨hw, tracks, ht, rfl⟩⟩
  · cases hv : Violation.ofState name (s.stateOf name) "assignment" with
    | none => exact absurd (Violation.ofState_eq_none.mp hv) hs
    | some v => exact ⟨some v, s, by simp [write, hv]⟩

theorem writeThrough_total : (c.writeThrough name).Total := by
  refine .bind (.lift (isRef_total hc hx)) fun isRef => ?_
  cases isRef with
  | false => exact write_total hc hx
  | true =>
    refine .bind .get fun s => ?_
    split
    · exact .pure _
    · refine .bind (.lift (isExclusiveRef_total hc hx)) fun exclusive => ?_
      cases exclusive <;> exact .pure _

theorem borrow_total (kind : LoanKind) (ref : String) : (c.borrow name kind ref).Total := by
  refine .bind .get fun s => .bind (.lift (binding_total hc hx)) fun b => ?_
  refine .bind (.lift (isRef_total hc hx)) fun through => ?_
  refine .bind (.modify _) fun _ => ?_
  split
  · exact .pure _
  · exact .bind (.modify _) fun _ => .pure _

theorem store_total : (c.store name).Total := by
  intro s
  obtain ⟨b, hb⟩ := binding_total hc hx
  obtain ⟨isRef, hr⟩ := isRef_total hc hx
  obtain ⟨tracks, ht⟩ := tracksResource_total hc hx
  by_cases hd : s.stateOf name = .dropped
  · exact ⟨_, s, by simp [store, hd]; rfl⟩
  · by_cases hs : s.stateOf name = .owned
    · rcases refused_or_writable hb hs with hbad | hw
      · obtain ⟨v, hrun, -⟩ := store_refused hb hs hbad
        exact ⟨_, _, hrun⟩
      · exact ⟨_, _, store_none_iff.mpr ⟨hd, fun _ => hw, isRef, tracks, hr, ht, rfl⟩⟩
    · exact ⟨_, _, store_none_iff.mpr ⟨hd, fun h => absurd h hs, isRef, tracks, hr, ht, rfl⟩⟩

end Site

namespace Site
variable {c : Site} (hc : c.Typed) {dest source : String}
    (hd : c.function.bindings.contains dest = true)
  (hs : c.function.bindings.contains source = true)
include hc hd hs

theorem transfer_total (moved : Bool) : (c.transfer dest source moved).Total := by
  intro s
  obtain ⟨isRef, hr⟩ := isRef_total hc hs
  cases isRef with
  | true =>
    obtain ⟨toRef, hto⟩ := isRef_total hc hd
    exact ⟨(), _, transfer_iff.mpr (Or.inl ⟨toRef, hr, hto, rfl⟩)⟩
  | false =>
    obtain ⟨tracks, ht⟩ := tracksResource_total hc hs
    cases tracks with
    | false => exact ⟨(), _, transfer_iff.mpr (Or.inr ⟨false, hr, ht, Or.inl ⟨rfl, rfl⟩⟩)⟩
    | true =>
      obtain ⟨takes, htakes⟩ := tracksResource_total hc hd
      exact ⟨(), _, transfer_iff.mpr (Or.inr ⟨true, hr, ht, Or.inr ⟨rfl, takes, htakes, rfl⟩⟩)⟩

theorem assign_some_total : (c.assign dest (some source)).Total := by
  intro s
  obtain ⟨dup, hdup⟩ := isDuplicable_total hc hs
  obtain ⟨taken, u, hm⟩ := moveOut_total hc hs s
  obtain ⟨refused, w, hr⟩ := store_total hc hd u
  by_cases hgo : refused = none ∧ s.stateOf source = .owned
  · obtain ⟨_, t, ht⟩ := transfer_total hc hd hs (!dup) w
    exact ⟨_, t, assign_some_iff.mpr
      ⟨dup, taken, u, refused, w, hdup, hm, hr, rfl, Or.inl ⟨hgo, ht⟩⟩⟩
  · exact ⟨_, w, assign_some_iff.mpr
      ⟨dup, taken, u, refused, w, hdup, hm, hr, rfl, Or.inr ⟨hgo, rfl⟩⟩⟩

theorem copy_total : (c.copy dest source).Total := by
  intro s
  have hinvalid : ∃ invalid, c.MiscopiedAs source invalid := by
    obtain ⟨dup, hdup⟩ := isDuplicable_total hc hs
    cases dup with
    | true => exact ⟨[], Or.inl ⟨hdup, rfl⟩⟩
    | false =>
      obtain ⟨b, hb, htype⟩ := hc.bindings source hs
      obtain ⟨text, htext⟩ := TypeTable.display_total htype
      exact ⟨_, Or.inr ⟨hdup, b, text, hb, htext, rfl⟩⟩
  obtain ⟨invalid, hinvalid⟩ := hinvalid
  obtain ⟨refused, w, hr⟩ := store_total hc hd s
  have htyped : ∃ vs t, (c.copyTyped dest source invalid).run s = .ok vs t := by
    by_cases hgo : refused = none ∧ w.stateOf source = .owned
    · obtain ⟨_, u, ht⟩ := transfer_total hc hd hs false w
      obtain ⟨tracks, htracks⟩ := tracksResource_total hc hd
      exact ⟨_, _, copyTyped_iff.mpr
        ⟨refused, w, hr, rfl, Or.inl ⟨hgo, u, tracks, ht, htracks, rfl⟩⟩⟩
    · exact ⟨_, _, copyTyped_iff.mpr ⟨refused, w, hr, rfl, Or.inr ⟨hgo, rfl⟩⟩⟩
  obtain ⟨vs, t, hrun⟩ := htyped
  exact ⟨vs, t, copy_iff.mpr ⟨invalid, hinvalid, hrun⟩⟩

end Site

theorem Lifetime.ofParam?_total {types : TypeTable} {p : Param} (hp : types.Defines p.type) :
    ∃ lt, Lifetime.ofParam? types p = .ok lt := by
  refine Except.bind_total hp fun d => ?_
  cases d with
  | ref inner exclusive tag =>
    cases tag with
    | none => exact ⟨_, rfl⟩
    | some lt =>
      dsimp only
      split <;> exact ⟨_, rfl⟩
  | _ => exact ⟨_, rfl⟩

theorem Lifetime.ofParams_total {types : TypeTable} (ps : List Param)
    (hps : ∀ p ∈ ps, types.Defines p.type) : ∃ lts, Lifetime.ofParams types ps = .ok lts := by
  induction ps with
  | nil => exact ⟨∅, rfl⟩
  | cons p ps ih =>
    obtain ⟨hp, hps⟩ := List.forall_mem_cons.mp hps
    exact Except.bind_total (ofParam?_total hp) fun lt =>
      Except.bind_total (ih hps) fun lts => ⟨_, rfl⟩

structure Signature.Typed (types : TypeTable) (s : Signature) : Prop where
  params : ∀ p ∈ s.params, types.Defines p.type
  returns : ∀ id ∈ s.returns, types.Defines id

namespace Signature
variable {types : TypeTable} {s : Signature}

theorem lenders_total (hs : s.Typed types) (call : Call) :
    ∃ args, s.lenders types call = .ok args := by
  unfold lenders
  cases hret : s.returns with
  | none => exact ⟨[], rfl⟩
  | some id =>
    refine Except.bind_total (hs.returns id hret) fun d => ?_
    cases d with
    | ref inner exclusive tag =>
      dsimp only
      split
      · exact ⟨_, rfl⟩
      · refine Except.filterMapM_total _ fun e he => ?_
        refine Except.bind_total (Lifetime.ofParam?_total (hs.params e.2 (List.of_mem_zip he).2))
          fun lt => ?_
        cases lt with
        | none => exact ⟨_, rfl⟩
        | some lt => cases tag <;> exact ⟨_, rfl⟩
    | _ => exact ⟨[], rfl⟩

theorem promised?_total (hs : s.Typed types) :
    ∃ promised, Lifetime.promised? types s = .ok promised := by
  unfold Lifetime.promised?
  cases hret : s.returns with
  | none => exact ⟨none, rfl⟩
  | some id =>
    refine Except.bind_total (hs.returns id hret) fun d => ?_
    cases d with
    | ref inner exclusive tag =>
      cases tag with
      | none =>
        exact Except.bind_total (Lifetime.ofParams_total s.params hs.params) fun lts => ⟨_, rfl⟩
      | some lt =>
        dsimp only
        split <;> exact ⟨_, rfl⟩
    | _ => exact ⟨none, rfl⟩

theorem ofSignature_total (hs : s.Typed types) :
    ∃ order, LifetimeOrder.ofSignature types s = .ok order :=
  Except.bind_total (Lifetime.ofParams_total s.params hs.params) fun _ => ⟨_, rfl⟩

end Signature

/-- The arguments whose loans a result takes over are arguments of the call. -/
theorem Signature.mem_args_of_lenders {types : TypeTable} {s : Signature} {call : Call}
    (hbound : ∀ e ∈ call.lifetimes, ∀ x ∈ e.2, x ∈ call.args) {args : List String}
    (h : s.lenders types call = .ok args) : ∀ x ∈ args, x ∈ call.args := by
  unfold lenders at h
  cases hret : s.returns with
  | none => rw [hret] at h; cases h; simp
  | some id =>
    rw [hret] at h
    obtain ⟨d, -, h⟩ := Except.bind_inv h
    cases d with
    | ref inner exclusive tag =>
      dsimp only at h
      split at h
      · rename_i names hnames
        cases h
        obtain ⟨lt, -, hlt⟩ := Option.bind_eq_some_iff.mp hnames
        obtain ⟨before, after, hl, -⟩ := List.lookup_eq_some_iff.mp hlt
        exact hbound (lt, args) (by rw [hl]; simp)
      · intro x hx
        obtain ⟨e, he, hx⟩ := Except.mem_of_filterMapM h x hx
        obtain ⟨lt, -, hx⟩ := Except.bind_inv hx
        have hfst : x = e.1 := by
          cases lt with
          | none => cases hx
          | some lt =>
            cases tag with
            | none => cases hx; rfl
            | some name =>
              dsimp only at hx
              split at hx
              · cases hx; rfl
              · cases hx
        exact hfst ▸ (List.of_mem_zip he).1
    | _ => cases h; simp

namespace Checker
variable {k : Checker} {c : Site}

theorem lend_total (name : String) (kind : LoanKind) (mutable : Bool) :
    (c.lend name kind mutable).Total :=
  fun _ => ⟨_, _, Site.lend_iff.mpr ⟨rfl, rfl⟩⟩

section
variable (hc : c.Typed)
include hc

theorem pass_total {arg : String} (hx : c.function.bindings.contains arg = true) (m : Manner)
    (callee : String) (p : Passed) : (m.pass c callee p arg).Total := by
  cases m with
  | value =>
    refine .bind (Site.moveOut_total hc hx) fun taken => ?_
    cases taken <;> exact .pure _
  | owner exclusive =>
    refine .bind (.bind (.lift (Site.binding_total hc hx)) fun b => lend_total arg _ _)
      fun result => ?_
    cases result <;> exact .pure _
  | reference exclusive =>
    refine .bind (fun s => ⟨_, _, Site.run_read "use"⟩) fun v => ?_
    cases v with
    | some v => exact .pure _
    | none =>
      refine .bind (.lift (Site.isExclusiveRef_total hc hx)) fun writes => ?_
      split
      · exact .pure _
      · refine .bind (lend_total arg _ _) fun result => ?_
        cases result <;> exact .pure _

theorem manner_total {arg : String} (hx : c.function.bindings.contains arg = true) {param : Param}
    (hp : c.types.Defines param.type) : ∃ m, k.manner c arg param = .ok m := by
  refine Except.bind_total hp fun d => ?_
  cases d with
  | ref inner exclusive lifetime =>
    refine Except.bind_total (Site.isRef_total hc hx) fun isRef => ?_
    split
    · exact ⟨_, rfl⟩
    · split <;> exact ⟨_, rfl⟩
  | _ => exact ⟨.value, rfl⟩

theorem passAll_total (callee : String) (args : List (String × Param))
    (hargs : ∀ e ∈ args, c.function.bindings.contains e.1 = true ∧ c.types.Defines e.2.type)
    (p : Passed) :
    (k.passAll c callee args p).Total := by
  induction args generalizing p with
  | nil => exact fun s => ⟨p, s, rfl⟩
  | cons e args ih =>
    obtain ⟨⟨hx, hp⟩, hargs⟩ := List.forall_mem_cons.mp hargs
    intro s
    obtain ⟨m, hm⟩ := manner_total (k := k) hc hx hp
    obtain ⟨p', u, hpass⟩ := pass_total hc hx m callee p s
    obtain ⟨q, t, hrest⟩ := ih hargs p' u
    exact ⟨q, t, passAll_cons_iff.mpr ⟨m, p', u, hm, hpass, hrest⟩⟩

theorem inheritAll_total {sig : Signature} (hs : sig.Typed c.types) {call : Call}
    (hargs : ∀ x ∈ call.args, c.function.bindings.contains x = true)
    (hbound : ∀ e ∈ call.lifetimes, ∀ x ∈ e.2, x ∈ call.args) {dest : String}
    (hd : c.function.bindings.contains dest = true) (p : Passed) (s : FlowState) :
    ∃ inherited, inheritAll c sig call p dest s = .ok inherited := by
  refine Except.bind_total (Site.isRef_total hc hd) fun isRef => ?_
  cases isRef with
  | false => exact ⟨_, rfl⟩
  | true =>
    obtain ⟨args, hl⟩ := Signature.lenders_total hs call
    simp only [↓reduceIte]
    rw [Except.bind_of_ok hl]
    refine Except.foldlM_total args (fun arg harg acc => ?_) _
    have hx := hargs arg (Signature.mem_args_of_lenders hbound hl arg harg)
    unfold inherit
    split
    · exact ⟨_, rfl⟩
    · refine Except.bind_total (Site.isRef_total hc hx) fun isRef => ?_
      cases isRef <;> exact ⟨_, rfl⟩

theorem receive_total {dest : String} (hd : c.function.bindings.contains dest = true)
    (inherited : Loans × Names) : (receive c dest inherited).Total := by
  intro s
  obtain ⟨refused, w, hr⟩ := Site.store_total hc hd s
  obtain ⟨isRef, href⟩ := Site.isRef_total hc hd
  exact ⟨_, _, receive_iff.mpr ⟨refused, w, isRef, hr, href, rfl, rfl⟩⟩

end

/-- The types that a function and the signatures it may call mention are defined, those of its own
bindings and parameters with all they are made of. Nothing is asked of other types of the table. -/
structure TypesGrounded (k : Checker) (f : Function) : Prop where
  bindings : ∀ b ∈ f.bindings.entries, k.types.Grounded b.type
  params : ∀ p ∈ f.signature.params, k.types.Grounded p.type
  signatures : ∀ s ∈ (k.signaturesFor f).entries, s.Typed k.types

variable {f : Function} {r : Regions} {b : Block} {n : Int} {span : Span}

theorem TypesGrounded.site (ht : k.TypesGrounded f) : (k.site f r b n span).Typed where
  bindings x hx := by
    obtain ⟨d, hd⟩ := Registry.contains_iff_get?.mp hx
    exact ⟨d, Function.binding_iff.mpr hd, ht.bindings d (Registry.mem_of_get?_eq_some hd)⟩

theorem signature_typed (hf : f.Fits k.types (k.signaturesFor f)) : f.signature.Typed k.types where
  params := hf.params
  returns := hf.returns

theorem applyCall_total (ht : k.TypesGrounded f) {call : Call}
    (hfit : (Op.call call).Fits f k.types (k.signaturesFor f)) :
    (k.applyCall (k.site f r b n span) call).Total := by
  obtain ⟨sig, hsig, -, hbound⟩ := hfit.callee call rfl
  have htyped := ht.signatures sig (Registry.mem_of_get?_eq_some hsig)
  have hc : (k.site f r b n span).Typed := ht.site
  intro s
  have hargs : ∀ e ∈ call.args.zip sig.params,
      (k.site f r b n span).function.bindings.contains e.1 = true ∧
      (k.site f r b n span).types.Defines e.2.type :=
    fun e he => ⟨hfit.uses e.1 (List.of_mem_zip he).1, htyped.params e.2 (List.of_mem_zip he).2⟩
  obtain ⟨passed, u, hpass⟩ := passAll_total (k := k) hc call.function _ hargs {} s
  cases hdest : call.dest with
  | none => exact ⟨_, _, applyCall_iff.mpr ⟨sig, passed, u, hsig, hpass, Or.inl ⟨hdest, rfl, rfl⟩⟩⟩
  | some dest =>
    have hd : f.bindings.contains dest = true :=
      hfit.defs dest (by simp [Op.defs, Op.defined?, hdest])
    obtain ⟨inherited, hi⟩ := inheritAll_total hc htyped hfit.uses hbound hd passed u
    obtain ⟨ws, t, hr⟩ := receive_total hc hd inherited (u.removeLoans passed.loans)
    exact ⟨_, t, applyCall_iff.mpr
      ⟨sig, passed, u, hsig, hpass, Or.inr ⟨dest, inherited, ws, hdest, hi, hr, rfl⟩⟩⟩

/-- Every operation that fits its function has a result. -/
theorem applyOp_total (ht : k.TypesGrounded f) {op : Op}
    (hfit : op.Fits f k.types (k.signaturesFor f)) :
    (k.applyOp (k.site f r b n span) op).Total := by
  have hc : (k.site f r b n span).Typed := ht.site
  have huses := hfit.uses
  have hdefs := hfit.defs
  cases op with
  | declare x => exact .bind (.modify _) fun _ => .pure _
  | init x source =>
    have hx := hdefs x (by simp [Op.defs, Op.defined?])
    cases source with
    | none => exact .toList (Site.store_total hc hx)
    | some source => exact Site.assign_some_total hc hx (huses source (by simp [Op.uses]))
  | move dest source =>
    exact Site.assign_some_total hc (hdefs dest (by simp [Op.defs, Op.defined?]))
      (huses source (by simp [Op.uses]))
  | copy dest source =>
    exact Site.copy_total hc (hdefs dest (by simp [Op.defs, Op.defined?]))
      (huses source (by simp [Op.uses]))
  | borrow x kind ref => exact .toList (Site.borrow_total hc (huses x (by simp [Op.uses])) kind ref)
  | use x => exact fun s => ⟨_, _, rfl⟩
  | write target value =>
    have hwrite := Site.writeThrough_total hc (huses target (by simp [Op.uses]))
    cases value with
    | none => exact .toList hwrite
    | some value =>
      exact .bind (Site.moveOut_total hc (huses value (by simp [Op.uses]))) fun _ =>
        .bind hwrite fun _ => .pure _
  | call call => exact applyCall_total ht hfit
  | endScope scope => exact fun s => ⟨_, _, rfl⟩
  | unsupported name => exact absurd rfl (hfit.supported name)

theorem returnReference_total (ht : k.TypesGrounded f) (hf : f.Fits k.types (k.signaturesFor f))
    {s : FlowState} (hs : s.Inside (f.vocabulary k.types)) (value : String) :
    ∃ vs, returnReference (k.site f r b n span) value s = .ok vs := by
  have hc : (k.site f r b n span).Typed := ht.site
  have hplace : ∀ e ∈ (s.loansHeldBy value).toList, f.bindings.contains e.1.place = true := by
    intro e he
    have hl := (FlowState.mem_loansHeldBy.mp (Loans.mem_of_mem_toList he)).1
    exact Registry.contains_iff_mem_names.mpr (hs.loans e.1 hl).place
  refine Except.bind_total (Except.filterM_total _ fun e he => ?_) fun owners => ?_
  · have hx := hplace e ((mem_sortBy _).mp he)
    exact Except.bind_total (Site.isRef_total hc hx) fun isRef => ⟨!isRef, rfl⟩
  · cases owners with
    | cons e rest => exact ⟨_, rfl⟩
    | nil =>
      refine Except.bind_total (Signature.promised?_total (signature_typed hf)) fun promised => ?_
      cases promised with
      | none => exact ⟨_, rfl⟩
      | some required =>
        refine Except.bind_total (Signature.ofSignature_total (signature_typed hf)) fun order => ?_
        dsimp only
        split <;> exact ⟨_, rfl⟩

theorem applyTerminator_total (ht : k.TypesGrounded f) (hf : f.Fits k.types (k.signaturesFor f))
    {s : FlowState} (hs : s.Inside (f.vocabulary k.types)) {e : Ending} (he : e.Fits f) :
    ∃ vs t, (applyTerminator (k.site f r b n span) (some e.terminator)).run s = .ok vs t := by
  have hc : (k.site f r b n span).Typed := ht.site
  have huses := he.uses
  have hsupported := he.supported
  generalize e.terminator = terminator at huses hsupported
  cases terminator with
  | jump target => exact ⟨_, _, rfl⟩
  | branch l m cond => cases cond <;> exact ⟨_, _, rfl⟩
  | ret value =>
    cases value with
    | none => exact ⟨_, _, rfl⟩
    | some value =>
      have hx := huses value (by simp [Terminator.uses])
      obtain ⟨isRef, hr⟩ := Site.isRef_total hc hx
      cases isRef with
      | false =>
        obtain ⟨taken, t, hm⟩ := Site.moveOut_total hc hx s
        exact ⟨_, t, applyReturn_iff.mpr (Or.inr ⟨hr, taken, hm, rfl⟩)⟩
      | true =>
        cases hv : (k.site f r b n span).readViolation s value "return" with
        | some v => exact ⟨_, s, applyReturn_iff.mpr (Or.inl ⟨hr, rfl, Or.inl ⟨v, hv, rfl⟩⟩)⟩
        | none =>
          have hret : ∃ vs, returnReference (k.site f r b n span) value s = .ok vs :=
            returnReference_total ht hf hs value
          obtain ⟨vs, hvs⟩ := hret
          exact ⟨vs, s, applyReturn_iff.mpr (Or.inl ⟨hr, rfl, Or.inr ⟨hv, hvs⟩⟩)⟩
  | unsupported name => exact absurd rfl (hsupported name)

/-- A block has a result from every state inside the universe of its function. -/
theorem applyFrom_total (ht : k.TypesGrounded f) (hf : f.Fits k.types (k.signaturesFor f))
    (hb : b ∈ f.blocks.entries) (done rest : List Instruction) (hbody : b.body = done ++ rest)
    {s : FlowState} (hs : s.Inside (f.vocabulary k.types)) :
    ∃ es t, (k.applyFrom f r b done.length rest).run s = .ok es t := by
  have hfit := hf.blocks b hb
  induction rest generalizing done s with
  | nil =>
    obtain ⟨e, he, hefit⟩ := hfit.ending
    have hterm : ∃ vs t,
        (applyTerminator (k.site f r b done.length b.endingSpan) (some e.terminator)).run
        s = .ok vs t :=
      applyTerminator_total ht hf hs hefit
    obtain ⟨vs, t, hrun⟩ := hterm
    rw [← Option.map_some (f := Ending.terminator), ← he] at hrun
    exact ⟨_, _, applyFrom_nil_iff.mpr ⟨_, applyEnding_iff.mpr ⟨vs, t, hrun, rfl, rfl⟩, rfl⟩⟩
  | cons i rest ih =>
    have hop : (k.applyOp (k.site f r b done.length i.span) i.op).Total :=
      applyOp_total ht (hfit.body i (by rw [hbody]; simp))
    obtain ⟨vs, w, hop⟩ := hop s
    have hstep := applyInstruction_iff (r := r) |>.mpr ⟨vs, w, hop, rfl, rfl⟩
    have hu := applyInstruction_inside hb hfit hbody hs hstep
    obtain ⟨es, t, hrest⟩ := ih (done ++ [i]) (by simp [hbody]) hu
    have hlen : ((done ++ [i]).length : Int) = done.length + 1 := by simp
    rw [hlen] at hrest
    exact ⟨_, t, applyFrom_cons_iff.mpr ⟨_, _, es, hstep, hrest, rfl⟩⟩

theorem transferBlock_total (ht : k.TypesGrounded f) (hf : f.Fits k.types (k.signaturesFor f))
    {label : String} (hb : f.blocks.get? label = some b) {s : FlowState}
    (hs : s.Inside (f.vocabulary k.types)) :
    ∃ t es, k.transferBlock f r label s = .ok (t, es) := by
  obtain ⟨es, t, hrun⟩ := applyFrom_total ht hf (Registry.mem_of_get?_eq_some hb) [] b.body rfl hs
  exact ⟨t, es, transferBlock_iff.mpr ⟨b, hb, hrun⟩⟩

theorem entryState_total (ht : k.TypesGrounded f) (hf : f.Fits k.types (k.signaturesFor f)) :
    ∃ s, k.entryState f = .ok s := by
  refine Except.foldlM_total _ (fun p hp s => ?_) _
  have hdef := hf.params p hp
  refine Except.bind_total (Lifetime.ofParam?_total hdef) fun lt => ?_
  cases lt with
  | some lt => exact ⟨_, rfl⟩
  | none =>
    refine Except.bind_total (TypeTable.isDuplicable_total (ht.params p hp)) fun dup => ?_
    cases dup <;> exact ⟨_, rfl⟩

end Checker

end Ownership

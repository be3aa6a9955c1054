import Mathlib.Data.List.Forall2
import Ownership.Proofs.Holders

/-! # Points that agree

What happens at a point depends on what can be seen of the bindings, the scopes and the signature of
its function, and on which references are live behind it. Where these are alike, every operation
changes the state in the same way and finds the same wrong. Where a violation is explained by the
next use of a reference, the explanations are as alike as the next uses are.
-/
namespace Ownership
open Std

namespace Except
variable {α β γ δ : Type} {S : α → β → Prop}

theorem bind_of_error {x : Except Fault α} {g : α → Except Fault β} {e : Fault} (h : x = .error e) :
    (x >>= g) = .error e := by
  rw [h]
  rfl

theorem foldlM_congr {g g' : β → α → Except Fault β} (l : List α)
    (h : ∀ a ∈ l, ∀ b, g b a = g' b a) (b : β) : l.foldlM g b = l.foldlM g' b := by
  induction l generalizing b with
  | nil => rfl
  | cons a l ih =>
    obtain ⟨ha, hl⟩ := List.forall_mem_cons.mp h
    rw [List.foldlM_cons, List.foldlM_cons, ha b]
    exact congrArg _ (funext fun b' => ih hl b')

def Alike (S : α → β → Prop) (x : Except Fault α) (y : Except Fault β) : Prop :=
  (∃ a b, x = .ok a ∧ y = .ok b ∧ S a b) ∨ ∃ e, x = .error e ∧ y = .error e

theorem Alike.refl {S : α → α → Prop} (hS : ∀ a, S a a) (x : Except Fault α) : Alike S x x := by
  cases x with
  | ok a => exact Or.inl ⟨a, a, rfl, rfl, hS a⟩
  | error e => exact Or.inr ⟨e, rfl, rfl⟩

theorem Alike.bind {T : γ → δ → Prop} {x : Except Fault α} {y : Except Fault β}
    {g : α → Except Fault γ} {g' : β → Except Fault δ} (h : Alike S x y)
    (hg : ∀ a b, S a b → Alike T (g a) (g' b)) :
    Alike T (x >>= g) (y >>= g') := by
  obtain ⟨a, b, rfl, rfl, hab⟩ | ⟨e, rfl, rfl⟩ := h
  · exact hg a b hab
  · exact Or.inr ⟨e, rfl, rfl⟩

theorem Alike.pure {a : α} {b : β} (h : S a b) : Alike S (Pure.pure a) (Pure.pure b) :=
  Or.inl ⟨a, b, rfl, rfl, h⟩

theorem Alike.mono {T : α → β → Prop} {x : Except Fault α} {y : Except Fault β} (h : Alike S x y)
    (hT : ∀ a b, S a b → T a b) : Alike T x y := by
  obtain ⟨a, b, rfl, rfl, hab⟩ | ⟨e, rfl, rfl⟩ := h
  · exact Or.inl ⟨a, b, rfl, rfl, hT a b hab⟩
  · exact Or.inr ⟨e, rfl, rfl⟩

theorem Alike.eq {x y : Except Fault α} (h : Alike (· = ·) x y) : y = x := by
  obtain ⟨a, b, rfl, rfl, rfl⟩ | ⟨e, rfl, rfl⟩ := h <;> rfl

theorem Alike.mapM {g : γ → Except Fault α} {g' : γ → Except Fault β} (l : List γ)
    (h : ∀ c ∈ l, Alike S (g c) (g' c)) : Alike (List.Forall₂ S) (l.mapM g) (l.mapM g') := by
  induction l with
  | nil => exact .pure .nil
  | cons c l ih =>
    obtain ⟨hc, hl⟩ := List.forall_mem_cons.mp h
    rw [List.mapM_cons, List.mapM_cons]
    exact hc.bind fun a b hab => (ih hl).bind fun as bs habs => .pure (.cons hab habs)

theorem filterMapM_congr {g g' : α → Except Fault (Option β)} {l : List α}
    (h : ∀ a ∈ l, g' a = g a) : l.filterMapM g' = l.filterMapM g := by
  have haux : ∀ (l : List α) (acc : List β), (∀ a ∈ l, g' a = g a) →
      List.filterMapM.loop g' l acc = List.filterMapM.loop g l acc := by
    intro l
    induction l with
    | nil => exact fun _ _ => rfl
    | cons a l ih =>
      intro acc hl
      obtain ⟨ha, hl⟩ := List.forall_mem_cons.mp hl
      simp only [List.filterMapM.loop, ha, ih _ hl]
  exact haux l [] h

end Except

namespace Access
variable {α β γ δ : Type} {S : α → β → Prop} {x : Access α} {y : Access β}

def AlikeFrom (S : α → β → Prop) (x : Access α) (y : Access β) (s : FlowState) : Prop :=
  (∃ a b t, x.run s = .ok a t ∧ y.run s = .ok b t ∧ S a b) ∨ ∃ e t, x.run s = .error e t ∧
    y.run s = .error e t

def Alike (S : α → β → Prop) (x : Access α) (y : Access β) : Prop := ∀ s, AlikeFrom S x y s

theorem AlikeFrom.bind {T : γ → δ → Prop} {g : α → Access γ} {g' : β → Access δ} {s : FlowState}
    (h : AlikeFrom S x y s) (hg : ∀ a b t, x.run s = .ok a t → S a b → AlikeFrom T (g a) (g' b) t) :
    AlikeFrom T (x >>= g) (y >>= g') s := by
  obtain ⟨a, b, t, hx, hy, hab⟩ | ⟨e, t, hx, hy⟩ := h
  · rw [AlikeFrom, run_bind_of_ok hx, run_bind_of_ok hy]
    exact hg a b t hx hab
  · refine Or.inr ⟨e, t, ?_, ?_⟩
    · rw [EStateM.run_bind, hx]
    · rw [EStateM.run_bind, hy]

namespace Alike

theorem bind {T : γ → δ → Prop} {g : α → Access γ} {g' : β → Access δ} (h : Alike S x y)
    (hg : ∀ a b, S a b → Alike T (g a) (g' b)) : Alike T (x >>= g) (y >>= g') :=
  fun s => (h s).bind fun a b t _ hab => hg a b hab t

theorem pure {a : α} {b : β} (h : S a b) : Alike S (Pure.pure a) (Pure.pure b) :=
  fun s => Or.inl ⟨a, b, s, rfl, rfl, h⟩

theorem refl {S : α → α → Prop} (hS : ∀ a, S a a) (x : Access α) : Alike S x x := by
  intro s
  cases hx : x.run s with
  | ok a t => exact Or.inl ⟨a, a, t, hx, hx, hS a⟩
  | error e t => exact Or.inr ⟨e, t, hx, hx⟩

/-- What is the same in both goes first. -/
theorem bind_same {T : γ → δ → Prop} {z : Access α} {g : α → Access γ} {g' : α → Access δ}
    (hg : ∀ a, Alike T (g a) (g' a)) : Alike T (z >>= g) (z >>= g') := by
  refine bind (S := (· = ·)) (refl (fun _ => rfl) z) ?_
  rintro a _ rfl
  exact hg a

theorem lift {x : Except Fault α} {y : Except Fault β} (h : Except.Alike S x y) :
    Alike S (liftM x : Access α) (liftM y : Access β) := by
  intro s
  obtain ⟨a, b, rfl, rfl, hab⟩ | ⟨e, rfl, rfl⟩ := h
  · exact Or.inl ⟨a, b, s, rfl, rfl, hab⟩
  · exact Or.inr ⟨e, s, rfl, rfl⟩

theorem foldlM {T : γ → δ → Prop} {l : List α} {g : γ → α → Access γ} {g' : δ → α → Access δ}
    {a : γ} {b : δ} (hab : T a b) (hg : ∀ e ∈ l, ∀ a b, T a b → Alike T (g a e) (g' b e)) :
    Alike T (l.foldlM g a) (l.foldlM g' b) := by
  induction l generalizing a b with
  | nil => exact pure hab
  | cons e l ih =>
    obtain ⟨he, hl⟩ := List.forall_mem_cons.mp hg
    rw [List.foldlM_cons, List.foldlM_cons]
    exact bind (he a b hab) fun a b hab => ih hab hl

theorem ite {p : Prop} [Decidable p] {x' : Access α} {y' : Access β} (h : Alike S x y)
    (h' : Alike S x' y') : Alike S (if p then x else x') (if p then y else y') := by
  split
  · exact h
  · exact h'

end Alike

end Access

/-- Explanations of a violation that count as the same. -/
abbrev Explains := List RelatedLocation → List RelatedLocation → Prop

structure Violation.Like (E : Explains) (v v' : Violation) : Prop where
  kind : v'.kind = v.kind
  subject : v'.subject = v.subject
  message : v'.message = v.message
  related : E v.related v'.related

structure Signature.SameIn (s : Signature) (t t' : TypeTable) : Prop where
  params : ∀ p ∈ s.params, t'.fetch p.type = t.fetch p.type
  returns : ∀ id ∈ s.returns, t'.fetch id = t.fetch id
  isDuplicable : ∀ p ∈ s.params, t'.isDuplicable p.type = t.isDuplicable p.type

/-- Operations cannot tell the types apart. -/
structure TypeTable.SameType (t t' : TypeTable) (id id' : TypeId) : Prop where
  isRef : (do return (← t'.fetch id').isRef : Except Fault Bool) = do return (← t.fetch id).isRef
  isExclusiveRef : (do return (← t'.fetch id').isExclusiveRef : Except Fault Bool) =
    do return (← t.fetch id).isExclusiveRef
  isDuplicable : t'.isDuplicable id' = t.isDuplicable id
  display : t'.display id' = t.display id

theorem TypeTable.SameType.refl (t : TypeTable) (id : TypeId) : t.SameType t id id :=
  ⟨rfl, rfl, rfl, rfl⟩

structure Binding.SameIn (t t' : TypeTable) (b b' : Binding) : Prop where
  mutable : b'.mutable = b.mutable
  type : t.SameType t' b.type b'.type

/-- The two points are alike in all that operations look at, but for what explains a violation. -/
structure Site.Agrees (E : Explains) (c c' : Site) : Prop where
  same : ∀ related, E related related
  explain : ∀ (l : Loan) (span : Span), E (l.explain span c.nextUse) (l.explain span c'.nextUse)
  binding : ∀ name, Except.Alike (Binding.SameIn c.types c'.types) (c.function.binding name)
    (c'.function.binding name)
  size : c'.function.bindings.size = c.function.bindings.size
  bindingsOf : ∀ scope x, x ∈ c'.bindingsOf scope ↔ x ∈ c.bindingsOf scope
  signature : c'.function.signature = c.function.signature
  types : c.function.signature.SameIn c.types c'.types
  location : c'.location = c.location
  span : c'.span = c.span
  isLiveAfter : c'.isLiveAfter = c.isLiveAfter

theorem Signature.SameIn.refl (s : Signature) (t : TypeTable) : s.SameIn t t :=
  ⟨fun _ _ => rfl, fun _ _ => rfl, fun _ _ => rfl⟩

namespace Signature.SameIn
variable {s : Signature} {t t' : TypeTable} (h : s.SameIn t t')
include h

theorem ofParam? {p : Param} (hp : p ∈ s.params) :
    Lifetime.ofParam? t' p = Lifetime.ofParam? t p := by
  rw [Lifetime.ofParam?, Lifetime.ofParam?, h.params p hp]

theorem ofParams : Lifetime.ofParams t' s.params = Lifetime.ofParams t s.params := by
  have hsub : ∀ ps : List Param, (∀ p ∈ ps, p ∈ s.params) →
      Lifetime.ofParams t' ps = Lifetime.ofParams t ps := by
    intro ps
    induction ps with
    | nil => exact fun _ => rfl
    | cons p ps ih =>
      intro hps
      obtain ⟨hp, hps⟩ := List.forall_mem_cons.mp hps
      rw [Lifetime.ofParams, Lifetime.ofParams, h.ofParam? hp, ih hps]
  exact hsub s.params fun _ hp => hp

theorem promised? : Lifetime.promised? t' s = Lifetime.promised? t s := by
  rw [Lifetime.promised?, Lifetime.promised?]
  cases hret : s.returns with
  | none => rfl
  | some id => simp only [h.returns id hret, h.ofParams]

theorem lenders (call : Call) : s.lenders t' call = s.lenders t call := by
  rw [Signature.lenders, Signature.lenders]
  cases hret : s.returns with
  | none => rfl
  | some id =>
    have hparams : ∀ e ∈ call.args.zip s.params,
        Lifetime.ofParam? t' e.2 = Lifetime.ofParam? t e.2 :=
      fun e he => h.ofParam? (List.of_mem_zip he).2
    simp only [h.returns id hret]
    congr 1
    funext d
    cases d with
    | ref inner exclusive tag =>
      dsimp only
      cases tag.bind call.boundTo with
      | some names => rfl
      | none =>
        apply Except.filterMapM_congr
        intro e he
        simp only [hparams e he]
    | _ => rfl

theorem ofSignature : LifetimeOrder.ofSignature t' s = LifetimeOrder.ofSignature t s := by
  rw [LifetimeOrder.ofSignature, LifetimeOrder.ofSignature, h.ofParams]

end Signature.SameIn

theorem Violation.Like.refl {E : Explains} (hE : ∀ related, E related related) (v : Violation) :
    v.Like E v :=
  ⟨rfl, rfl, rfl, hE v.related⟩

inductive Granted.Like (E : Explains) : Except Violation Loan → Except Violation Loan → Prop
  | refused {v v' : Violation} (h : v.Like E v') : Granted.Like E (.error v) (.error v')
  | granted (loan : Loan) : Granted.Like E (.ok loan) (.ok loan)

theorem rel_toList {α β : Type} {S : α → β → Prop} {x : Option α} {y : Option β}
    (h : Option.Rel S x y) : List.Forall₂ S x.toList y.toList := by
  cases h with
  | some h => exact .cons h .nil
  | none => exact .nil

namespace FlowState

/-- It does not matter in which order bindings go. -/
theorem foldl_drop_congr {l l' : List String} (h : ∀ x, x ∈ l' ↔ x ∈ l) (s : FlowState) :
    l'.foldl drop s = l.foldl drop s := by
  have hstates : (l'.foldl drop s).states = (l.foldl drop s).states :=
    ExtTreeMap.ext_getElem? fun {x} => by simp only [foldl_drop_states, h]
  have hprovenance : (l'.foldl drop s).provenance = (l.foldl drop s).provenance :=
    ExtTreeMap.ext_getElem? fun {x} => by simp only [foldl_drop_provenance, h]
  have hresources : (l'.foldl drop s).resources = (l.foldl drop s).resources :=
    ExtTreeMap.ext_getElem? fun {x} => by simp only [foldl_drop_resources, h]
  have hloans : (l'.foldl drop s).loans = (l.foldl drop s).loans := by
    rw [foldl_drop_loans, foldl_drop_loans]
  cases hs' : l'.foldl drop s
  cases hs : l.foldl drop s
  simp_all

/-- How a request is answered does not depend on next uses, but the explanation does. -/
theorem checkBorrow_like {E : Explains} (hE : ∀ related, E related related)
    {next next' : String → Option UseSite}
    (h : ∀ (l : Loan) (span : Span), E (l.explain span next) (l.explain span next')) (s : FlowState)
    (r : BorrowRequest) :
    Granted.Like E (s.checkBorrow r next) (s.checkBorrow r next') := by
  dsimp only [checkBorrow]
  generalize Violation.ofState r.place (s.stateOf r.place) _ = unusable
  generalize (r.kind == .exclusive && !r.mutable) = barred
  generalize s.blockingLoans r.place r.kind r.ref = blocking
  cases unusable with
  | some v => exact .refused (.refl hE v)
  | none =>
    cases barred with
    | true => exact .refused (.refl hE _)
    | false =>
      cases blocking with
      | nil => exact .granted _
      | cons e rest => exact .refused ⟨rfl, rfl, rfl, h e.1 e.2⟩

end FlowState

def Site.copyAfter (c : Site) (dest source : String) (invalid : List Violation) :
    Access (List Violation) := do
  let unreadable ← c.read source "copy"
  match ← c.store dest with
  | some v => return invalid ++ unreadable.toList ++ [v]
  | none =>
    if (← get).isOwned source then
      c.transfer dest source false
      if ← c.tracksResource dest then
        modify (c.mint dest)
    return invalid ++ unreadable.toList

namespace Site.Agrees
variable {E : Explains} {c c' : Site} (h : c.Agrees E c')
include h

theorem violation_refl (v : Violation) : v.Like E v := .refl h.same v

theorem option_refl (v : Option Violation) : Option.Rel (Violation.Like E) v v := by
  cases v with
  | none => exact .none
  | some v => exact .some (h.violation_refl v)

theorem list_refl (vs : List Violation) : List.Forall₂ (Violation.Like E) vs vs :=
  List.forall₂_same.mpr fun v _ => h.violation_refl v

theorem isRef (name : String) : c'.isRef name = c.isRef name := by
  rw [Site.isRef, Site.isRef]
  obtain ⟨b, b', hb, hb', hsame⟩ | ⟨e, hb, hb'⟩ := h.binding name
  · rw [hb, hb']
    exact hsame.type.isRef
  · rw [hb, hb']
    rfl

theorem isExclusiveRef (name : String) : c'.isExclusiveRef name = c.isExclusiveRef name := by
  rw [Site.isExclusiveRef, Site.isExclusiveRef]
  obtain ⟨b, b', hb, hb', hsame⟩ | ⟨e, hb, hb'⟩ := h.binding name
  · rw [hb, hb']
    exact hsame.type.isExclusiveRef
  · rw [hb, hb']
    rfl

theorem isDuplicable (name : String) : c'.isDuplicable name = c.isDuplicable name := by
  rw [Site.isDuplicable, Site.isDuplicable]
  obtain ⟨b, b', hb, hb', hsame⟩ | ⟨e, hb, hb'⟩ := h.binding name
  · rw [hb, hb']
    exact hsame.type.isDuplicable
  · rw [hb, hb']
    rfl

theorem tracksResource (name : String) : c'.tracksResource name = c.tracksResource name := by
  rw [Site.tracksResource, Site.tracksResource, h.isRef, h.isDuplicable]

theorem mint (name : String) : c'.mint name = c.mint name := by
  funext s
  rw [Site.mint, Site.mint, h.size, h.location]

theorem readViolation (s : FlowState) (name action : String) :
    Option.Rel (Violation.Like E) (c.readViolation s name action)
      (c'.readViolation s name action) := by
  rw [Site.readViolation, Site.readViolation]
  cases Violation.ofState name (s.stateOf name) action with
  | some v => exact .some (h.violation_refl v)
  | none =>
    cases ((s.loansOn name).keep fun l => l.kind == .exclusive).toList with
    | nil => exact .none
    | cons e rest => exact .some ⟨rfl, rfl, rfl, h.explain e.1 e.2⟩

theorem read (name action : String) :
    Access.Alike (Option.Rel (Violation.Like E)) (c.read name action) (c'.read name action) :=
  Access.Alike.bind_same fun s => .pure (h.readViolation s name action)

theorem write (name : String) :
    Access.Alike (Option.Rel (Violation.Like E)) (c.write name) (c'.write name) := by
  unfold Site.write
  refine Access.Alike.bind_same fun s => ?_
  cases Violation.ofState name (s.stateOf name) "assignment" with
  | some v => exact .pure (.some (h.violation_refl v))
  | none =>
    refine Access.Alike.bind (.lift (h.binding name)) fun b b' hb => ?_
    rw [hb.mutable]
    refine Access.Alike.ite (.pure (.some (h.violation_refl _))) ?_
    cases (s.loansOn name).toList with
    | cons e rest => exact .pure (.some ⟨rfl, rfl, rfl, h.explain e.1 e.2⟩)
    | nil =>
      rw [h.tracksResource, h.mint]
      exact .refl h.option_refl _

theorem writeThrough (target : String) :
    Access.Alike (Option.Rel (Violation.Like E)) (c.writeThrough target)
      (c'.writeThrough target) := by
  unfold Site.writeThrough
  rw [h.isRef]
  refine Access.Alike.bind_same fun through => Access.Alike.ite ?_ (h.write target)
  refine Access.Alike.bind_same fun s => ?_
  have hread := h.readViolation s target "write through"
  generalize c.readViolation s target "write through" = v at hread ⊢
  generalize c'.readViolation s target "write through" = v' at hread ⊢
  cases hread with
  | some hv => exact .pure (.some hv)
  | none =>
    rw [h.isExclusiveRef]
    exact .refl h.option_refl _

theorem moveOut (name : String) :
    Access.Alike (Option.Rel (Violation.Like E)) (c.moveOut name) (c'.moveOut name) := by
  unfold Site.moveOut
  rw [h.isDuplicable]
  refine Access.Alike.bind_same fun duplicable => Access.Alike.ite (h.read name "use") ?_
  refine Access.Alike.bind_same fun s => ?_
  cases Violation.ofState name (s.stateOf name) "move" with
  | some v => exact .pure (.some (h.violation_refl v))
  | none =>
    refine Access.Alike.bind_same fun _ => ?_
    cases (s.loansOn name).toList with
    | nil => exact .pure .none
    | cons e rest => exact .pure (.some ⟨rfl, rfl, rfl, h.explain e.1 e.2⟩)

theorem borrow (name : String) (kind : LoanKind) (ref : String) :
    Access.Alike (Option.Rel (Violation.Like E)) (c.borrow name kind ref)
      (c'.borrow name kind ref) := by
  unfold Site.borrow
  rw [h.location, h.span, h.isRef]
  refine Access.Alike.bind_same fun s =>
    Access.Alike.bind (.lift (h.binding name)) fun b b' hb => ?_
  rw [hb.mutable]
  refine Access.Alike.bind_same fun through => Access.Alike.bind_same fun _ => ?_
  have hasked := FlowState.checkBorrow_like h.same h.explain s
    { place := name, kind, ref := some ref, origin := c.location, mutable := b.mutable,
      span := c.span }
  generalize s.checkBorrow _ c.nextUse = answer at hasked ⊢
  generalize s.checkBorrow _ c'.nextUse = answer' at hasked ⊢
  cases hasked with
  | refused hv => exact .pure (.some hv)
  | granted loan => exact .refl h.option_refl _

theorem lend (name : String) (kind : LoanKind) (mutable : Bool) :
    Access.Alike (Granted.Like E) (c.lend name kind mutable) (c'.lend name kind mutable) := by
  unfold Site.lend
  rw [h.location, h.span]
  refine Access.Alike.bind_same fun s => ?_
  have hasked := FlowState.checkBorrow_like h.same h.explain s
    { place := name, kind, ref := none, origin := c.location, mutable, temporary := true,
      span := c.span }
  generalize s.checkBorrow _ c.nextUse = answer at hasked ⊢
  generalize s.checkBorrow _ c'.nextUse = answer' at hasked ⊢
  cases hasked with
  | refused hv => exact .pure (.refused hv)
  | granted loan => exact Access.Alike.bind_same fun _ => .pure (.granted loan)

theorem borrowTemporary (name : String) (kind : LoanKind) :
    Access.Alike (Granted.Like E) (c.borrowTemporary name kind) (c'.borrowTemporary name kind) := by
  refine Access.Alike.bind (.lift (h.binding name)) fun b b' hb => ?_
  rw [hb.mutable]
  exact h.lend name kind b.mutable

theorem store (name : String) :
    Access.Alike (Option.Rel (Violation.Like E)) (c.store name) (c'.store name) := by
  unfold Site.store
  simp only [h.isRef, h.tracksResource, h.mint]
  refine Access.Alike.bind_same fun s => Access.Alike.ite (.refl h.option_refl _) ?_
  refine Access.Alike.ite ?_ (.refl h.option_refl _)
  refine Access.Alike.bind (h.write name) fun v v' hv => ?_
  cases hv with
  | some hv => exact .pure (.some hv)
  | none => exact .refl h.option_refl _

theorem transfer (dest source : String) (moved : Bool) :
    c'.transfer dest source moved = c.transfer dest source moved := by
  simp only [Site.transfer, h.isRef, h.tracksResource]

theorem assign (dest : String) (source : Option String) :
    Access.Alike (List.Forall₂ (Violation.Like E)) (c.assign dest source)
      (c'.assign dest source) := by
  cases source with
  | none => exact Access.Alike.bind (h.store dest) fun v v' hv => .pure (rel_toList hv)
  | some source =>
    unfold Site.assign
    simp only [h.isDuplicable, h.transfer]
    refine Access.Alike.bind_same fun duplicable => Access.Alike.bind_same fun s => ?_
    refine Access.Alike.bind (h.moveOut source) fun taken taken' htaken => ?_
    refine Access.Alike.bind (h.store dest) fun v v' hv => ?_
    cases hv with
    | some hv => exact .pure (List.rel_append (rel_toList htaken) (.cons hv .nil))
    | none =>
      exact Access.Alike.ite (Access.Alike.bind_same fun _ => .pure (rel_toList htaken))
        (.pure (rel_toList htaken))

theorem copyAfter (dest source : String) (invalid : List Violation) :
    Access.Alike (List.Forall₂ (Violation.Like E)) (c.copyAfter dest source invalid)
      (c'.copyAfter dest source invalid) := by
  unfold Site.copyAfter
  simp only [h.transfer, h.tracksResource, h.mint]
  refine Access.Alike.bind (h.read source "copy") fun unreadable unreadable' hread => ?_
  have hboth := List.rel_append (h.list_refl invalid) (rel_toList hread)
  refine Access.Alike.bind (h.store dest) fun v v' hv => ?_
  cases hv with
  | some hv => exact .pure (List.rel_append hboth (.cons hv .nil))
  | none =>
    refine Access.Alike.bind_same fun s => Access.Alike.ite ?_ (.pure hboth)
    refine Access.Alike.bind_same fun _ => Access.Alike.bind_same fun tracked => ?_
    exact Access.Alike.ite (Access.Alike.bind_same fun _ => .pure hboth) (.pure hboth)

theorem copy (dest source : String) :
    Access.Alike (List.Forall₂ (Violation.Like E)) (c.copy dest source) (c'.copy dest source) := by
  unfold Site.copy
  rw [h.isDuplicable]
  refine Access.Alike.bind_same fun duplicable => Access.Alike.ite (h.copyAfter dest source []) ?_
  refine Access.Alike.bind (.lift (h.binding source)) fun b b' hb => ?_
  rw [hb.type.display]
  exact Access.Alike.bind_same fun type => h.copyAfter dest source _

theorem dangling? {gone gone' : List String} (hgone : ∀ x, x ∈ gone' ↔ x ∈ gone) (loan : Loan)
    (span : Span) :
    Option.Rel (Violation.Like E) (c.dangling? gone loan span) (c'.dangling? gone' loan span) := by
  rw [Site.dangling?, Site.dangling?]
  cases loan.ref with
  | none => exact .none
  | some ref =>
    have hcontains : ∀ x, gone'.contains x = gone.contains x := fun x => by
      rw [Bool.eq_iff_iff, List.contains_iff_mem, List.contains_iff_mem, hgone]
    simp only [hcontains, h.isLiveAfter]
    split
    · exact .some ⟨rfl, rfl, rfl, h.explain loan span⟩
    · exact .none

theorem dropScope (scope : String) :
    Access.Alike (List.Forall₂ (Violation.Like E)) (c.dropScope scope) (c'.dropScope scope) := by
  unfold Site.dropScope
  have hcontains : ∀ x, (c'.bindingsOf scope).contains x =
      (c.bindingsOf scope).contains x := fun x => by
    rw [Bool.eq_iff_iff, List.contains_iff_mem, List.contains_iff_mem, h.bindingsOf]
  simp only [hcontains, FlowState.foldl_drop_congr (h.bindingsOf scope)]
  refine Access.Alike.bind_same fun s => Access.Alike.bind_same fun _ => .pure ?_
  have hloans : ∀ loans : List (Loan × Span), List.Forall₂ (· = ·) loans loans := fun loans =>
    List.forall₂_refl loans
  refine List.rel_filterMap ?_ (hloans _)
  rintro e _ rfl
  exact h.dangling? (h.bindingsOf scope) e.1 e.2

end Site.Agrees

structure Checker.AgreesAt (k k' : Checker) (c c' : Site) : Prop where
  autoBorrow : k'.autoBorrow = k.autoBorrow
  signature : ∀ name, (k'.signaturesFor c'.function).get? name =
    (k.signaturesFor c.function).get? name
  types : ∀ name sig, (k.signaturesFor c.function).get? name = some sig →
    sig.SameIn c.types c'.types

structure Passed.Like (E : Explains) (p p' : Passed) : Prop where
  violations : List.Forall₂ (Violation.Like E) p.violations p'.violations
  lent : p'.lent = p.lent
  reborrows : p'.reborrows = p.reborrows

namespace Passed.Like
variable {E : Explains} {p p' : Passed} (h : p.Like E p')
include h

theorem blame {v v' : Violation} (hv : v.Like E v') : (p.blame v).Like E (p'.blame v') :=
  ⟨List.rel_append h.violations (.cons hv .nil), h.lent, h.reborrows⟩

theorem loans : p'.loans = p.loans := by
  rw [Passed.loans, Passed.loans, h.lent, h.reborrows]

end Passed.Like

namespace Checker
variable {E : Explains} {k k' : Checker} {c c' : Site} {p p' : Passed}

section Site
variable (h : c.Agrees E c')
include h

theorem passValue_alike (hp : p.Like E p') (arg : String) :
    Access.Alike (Passed.Like E) (passValue c p arg) (passValue c' p' arg) := by
  refine Access.Alike.bind (h.moveOut arg) fun v v' hv => ?_
  cases hv with
  | none => exact .pure hp
  | some hv => exact .pure (hp.blame hv)

theorem passReference_alike (hp : p.Like E p') (callee arg : String) (exclusive : Bool) :
    Access.Alike (Passed.Like E) (passReference c callee p arg exclusive)
      (passReference c' callee p' arg exclusive) := by
  refine Access.Alike.bind (h.read arg "use") fun v v' hv => ?_
  cases hv with
  | some hv => exact .pure (hp.blame hv)
  | none =>
    rw [h.isExclusiveRef]
    refine Access.Alike.bind_same fun isExclusive => ?_
    refine Access.Alike.ite (.pure (hp.blame (h.violation_refl _))) ?_
    refine Access.Alike.bind (h.lend arg _ true) fun answer answer' hlent => ?_
    cases hlent with
    | refused hv => exact .pure (hp.blame hv)
    | granted loan => exact .pure ⟨hp.violations, hp.lent, congrArg (loan :: ·) hp.reborrows⟩

theorem passOwner_alike (hp : p.Like E p') (arg : String) (exclusive : Bool) :
    Access.Alike (Passed.Like E) (passOwner c p arg exclusive) (passOwner c' p' arg exclusive) := by
  refine Access.Alike.bind (h.borrowTemporary arg _) fun answer answer' hlent => ?_
  cases hlent with
  | refused hv => exact .pure (hp.blame hv)
  | granted loan => exact .pure ⟨hp.violations, congrArg (·.insert arg loan) hp.lent, hp.reborrows⟩

theorem inherit_eq (hp : p.Like E p') (s : FlowState) (dest : String) (acc : Loans × Names)
    (arg : String) : inherit c' s p' dest acc arg = inherit c s p dest acc arg := by
  simp only [inherit, h.span, h.isRef, hp.lent]

theorem inheritAll_eq (hp : p.Like E p') {sig : Signature} (hsig : sig.SameIn c.types c'.types)
    (call : Call) (dest : String) (s : FlowState) :
    inheritAll c' sig call p' dest s = inheritAll c sig call p dest s := by
  have hinherit : inherit c' s p' dest = inherit c s p dest :=
    funext₂ fun acc arg => inherit_eq h hp s dest acc arg
  simp only [inheritAll, h.isRef, hsig.lenders, hinherit]

theorem receive_alike (dest : String) (inherited : Loans × Names) :
    Access.Alike (List.Forall₂ (Violation.Like E)) (receive c dest inherited)
      (receive c' dest inherited) := by
  unfold receive
  rw [h.isRef]
  refine Access.Alike.bind (h.store dest) fun v v' hv => ?_
  have hlist := rel_toList hv
  refine Access.Alike.bind_same fun isRef => Access.Alike.ite ?_ (.pure hlist)
  refine Access.Alike.bind_same fun s => Access.Alike.ite ?_ (.pure hlist)
  exact Access.Alike.bind_same fun _ => .pure hlist

theorem returnReference_alike (value : String) (s : FlowState) :
    Except.Alike (List.Forall₂ (Violation.Like E)) (returnReference c value s)
      (returnReference c' value s) := by
  have hsame : returnReference c' value s = returnReference c value s := by
    simp only [returnReference, h.isRef, h.types.promised?, h.types.ofSignature, h.signature,
      Function.name]
  rw [hsame]
  exact .refl h.list_refl _

theorem applyReturn_alike (value : String) :
    Access.Alike (List.Forall₂ (Violation.Like E)) (applyReturn c value)
      (applyReturn c' value) := by
  unfold applyReturn
  rw [h.isRef]
  refine Access.Alike.bind_same fun isRef => Access.Alike.ite ?_ ?_
  · refine Access.Alike.bind (h.read value "return") fun v v' hv => ?_
    cases hv with
    | some hv => exact .pure (.cons hv .nil)
    | none => exact Access.Alike.bind_same fun s => .lift (returnReference_alike h value s)
  · exact Access.Alike.bind (h.moveOut value) fun v v' hv => .pure (rel_toList hv)

theorem applyTerminator_alike (terminator : Option Terminator) :
    Access.Alike (List.Forall₂ (Violation.Like E)) (applyTerminator c terminator)
      (applyTerminator c' terminator) := by
  cases terminator with
  | none =>
    simp only [applyTerminator, h.location]
    exact .refl h.list_refl _
  | some terminator =>
    cases terminator with
    | jump target => exact .pure .nil
    | branch l m cond =>
      cases cond with
      | none => exact .pure .nil
      | some name =>
        exact Access.Alike.bind (h.read name "use") fun v v' hv => .pure (rel_toList hv)
    | ret value =>
      cases value with
      | none => exact .pure .nil
      | some name => exact applyReturn_alike h name
    | unsupported name =>
      simp only [applyTerminator, h.location]
      exact .refl h.list_refl _

end Site

section Calls
variable (h : c.Agrees E c') (hk : k.AgreesAt k' c c')
include h hk

theorem passArg_alike (hp : p.Like E p') (callee arg : String) {param : Param}
    (hparam : c'.types.fetch param.type = c.types.fetch param.type) :
    Access.Alike (Passed.Like E) (k.passArg c callee p arg param)
      (k'.passArg c' callee p' arg param) := by
  unfold passArg
  rw [hparam, h.isRef, hk.autoBorrow]
  refine Access.Alike.bind_same fun d => ?_
  cases d with
  | ref inner exclusive lt =>
    refine Access.Alike.bind_same fun isRef =>
      Access.Alike.ite (passReference_alike h hp callee arg exclusive) ?_
    exact Access.Alike.ite (passOwner_alike h hp arg exclusive) (passValue_alike h hp arg)
  | _ => exact passValue_alike h hp arg

theorem applyCall_alike (call : Call) :
    Access.Alike (List.Forall₂ (Violation.Like E)) (k.applyCall c call) (k'.applyCall c' call) := by
  unfold applyCall
  rw [hk.signature]
  cases hsig : (k.signaturesFor c.function).get? call.function with
  | none => exact .refl h.list_refl _
  | some sig =>
    have htypes := hk.types call.function sig hsig
    have hpass : ∀ e ∈ call.args.zip sig.params, ∀ p p', p.Like E p' →
        Access.Alike (Passed.Like E) (k.passArg c call.function p e.1 e.2)
        (k'.passArg c' call.function p' e.1 e.2) :=
      fun e he p p' hp =>
        passArg_alike h hk hp call.function e.1 (htypes.params e.2 (List.of_mem_zip he).2)
    refine Access.Alike.bind (Access.Alike.foldlM ⟨.nil, rfl, rfl⟩ hpass) fun p p' hp => ?_
    cases call.dest with
    | none =>
      rw [hp.loans]
      exact Access.Alike.bind_same fun _ => .pure hp.violations
    | some dest =>
      rw [hp.loans]
      refine Access.Alike.bind_same fun s => ?_
      rw [inheritAll_eq h hp htypes]
      refine Access.Alike.bind_same fun inherited => Access.Alike.bind_same fun _ => ?_
      exact Access.Alike.bind (receive_alike h dest inherited) fun vs vs' hvs =>
        .pure (List.rel_append hp.violations hvs)

/-- An operation does the same at two points that agree. -/
theorem applyOp_alike (op : Op) :
    Access.Alike (List.Forall₂ (Violation.Like E)) (k.applyOp c op) (k'.applyOp c' op) := by
  cases op with
  | declare x => exact .refl h.list_refl _
  | init x source => exact h.assign x source
  | move dest source => exact h.assign dest (some source)
  | copy dest source => exact h.copy dest source
  | borrow x kind ref =>
    exact Access.Alike.bind (h.borrow x kind ref) fun v v' hv => .pure (rel_toList hv)
  | use x => exact Access.Alike.bind (h.read x "use") fun v v' hv => .pure (rel_toList hv)
  | write target value =>
    cases value with
    | none => exact Access.Alike.bind (h.writeThrough target) fun v v' hv => .pure (rel_toList hv)
    | some value =>
      refine Access.Alike.bind (h.moveOut value) fun taken taken' htaken => ?_
      exact Access.Alike.bind (h.writeThrough target) fun v v' hv =>
        .pure (List.rel_append (rel_toList htaken) (rel_toList hv))
  | call call => exact applyCall_alike h hk call
  | endScope scope => exact h.dropScope scope
  | unsupported name =>
    simp only [applyOp, h.location]
    exact .refl h.list_refl _

end Calls

end Checker

end Ownership

import Ownership.Proofs.Mirror

/-! # Functions with the same lookups

The check of a function and the walk over its blocks look things up by name. Two functions that give
the same answers are walked in the same order, may be visited equally often, and each part of them
is checked with the same result.
-/
namespace Ownership
open Std

structure Checker.SameLookups (k k' : Checker) (f g : Function) :
    Prop extends k.SeesAlike k' f g where
  entryLabel : g.entryLabel = f.entryLabel
  block : ∀ l, g.blocks.get? l = f.blocks.get? l
  blockCount : g.blocks.size = f.blocks.size
  instructionCount : g.instructions.length = f.instructions.length
  scope : ∀ s, g.scopes.get? s = f.scopes.get? s
  scopeCount : g.scopes.size = f.scopes.size

namespace Checker.SameLookups
variable {k k' : Checker} {f g : Function} (h : k.SameLookups k' f g)
include h

theorem name : g.name = f.name := congrArg Signature.name h.signature

theorem hasBlock (l : String) : g.blocks.contains l = f.blocks.contains l := by
  rw [← Registry.isSome_get?, ← Registry.isSome_get?, h.block]

theorem hasScope (s : String) : g.scopes.contains s = f.scopes.contains s := by
  rw [← Registry.isSome_get?, ← Registry.isSome_get?, h.scope]

theorem lookup (x : String) :
    (∃ b b', f.bindings.get? x = some b ∧ g.bindings.get? x = some b' ∧
      b.SameIn k.types k'.types b') ∨ f.bindings.get? x = none ∧ g.bindings.get? x = none := by
  have hnone : ∀ {f : Function} {e}, f.binding x = .error e → f.bindings.get? x = none := by
    intro f e he
    rw [Function.binding] at he
    cases hx : f.bindings.get? x with
    | none => rfl
    | some b =>
      rw [hx] at he
      cases he
  obtain ⟨b, b', hb, hb', hsame⟩ | ⟨e, hb, hb'⟩ := h.binding x
  · exact Or.inl ⟨b, b', Function.binding_iff.mp hb, Function.binding_iff.mp hb', hsame⟩
  · exact Or.inr ⟨hnone hb, hnone hb'⟩

theorem hasBinding (x : String) : g.bindings.contains x = f.bindings.contains x := by
  rw [← Registry.isSome_get?, ← Registry.isSome_get?]
  obtain ⟨b, b', hb, hb', -⟩ | ⟨hb, hb'⟩ := h.lookup x
  · rw [hb, hb']
    rfl
  · rw [hb, hb']

/-- Where the references are alike too, the functions mirror each other. -/
theorem mirrors {E : Explains} (hE : ∀ related, E related related) {r r' : Regions}
    (hr : r.AgreeOn f.Reachable (fun _ => True) r' E) :
    Mirrors f.Reachable (fun _ => True) E k k' f g r r' where
  toSeesAlike := h.toSeesAlike
  same := hE
  regions := hr
  entry l hl := ⟨l, hl, .refl⟩
  block l _ := h.block l
  next _ _ hl hedge := hl.step hedge
  defs _ _ _ _ _ _ _ _ := trivial

/-- The blocks are walked in the same order. -/
theorem reversePostorder : g.reversePostorder = f.reversePostorder := by
  have hsuccessors : g.successors = f.successors := by
    funext l
    rw [Function.successors, Function.successors, Function.block, Function.block, h.block]
  have hwalk : ∀ n w l, g.walkFrom n w l = f.walkFrom n w l := by
    intro n
    induction n with
    | zero => exact fun _ _ => rfl
    | succ n ih =>
      intro w l
      have hrest : g.walkFrom n = f.walkFrom n := funext fun w => funext fun l => ih w l
      rw [Function.walkFrom, Function.walkFrom, hsuccessors, hrest]
  rw [Function.reversePostorder, Function.reversePostorder, h.entryLabel]
  simp only [Function.walk_eq_walkFrom, hwalk, h.blockCount]

theorem visitBound : visitBound g = Checker.visitBound f := by
  rw [Checker.visitBound, Checker.visitBound, height, height, h.blockCount, h.size, h.signature,
    h.instructionCount]

section WellFormed
open WellFormed

theorem checkSignature :
    checkSignature k'.types g.signature = WellFormed.checkSignature k.types f.signature := by
  have hparams : ∀ (ps : List Param) seen, (∀ p ∈ ps, p ∈ f.signature.params) →
      checkParams k'.types f.signature ps seen = checkParams k.types f.signature ps seen := by
    intro ps
    induction ps with
    | nil => exact fun _ _ => rfl
    | cons p ps ih =>
      intro seen hps
      obtain ⟨hp, hps⟩ := List.forall_mem_cons.mp hps
      simp only [checkParams, lifetimeOf, h.types.params p hp, ih _ hps]
  rw [WellFormed.checkSignature, WellFormed.checkSignature, h.signature, hparams _ _ fun _ hp => hp]
  cases hret : f.signature.returns with
  | none => rfl
  | some id => simp only [lifetimeOf, h.types.returns id hret]

theorem checkEntry : checkEntry g = WellFormed.checkEntry f := by
  simp only [WellFormed.checkEntry, h.entryLabel, h.blockCount, h.hasBlock, h.name, h.signature]

theorem climb (start : String) (n : Nat) (s : String) :
    climb g start n s = WellFormed.climb f start n s := by
  induction n generalizing s with
  | zero => rfl
  | succ n ih => simp only [WellFormed.climb, h.scope, ih]

theorem checkScope : checkScope g = WellFormed.checkScope f := by
  funext s
  simp only [WellFormed.checkScope, h.hasScope, h.climb, h.scopeCount]

theorem checkBinding : checkBinding g = WellFormed.checkBinding f := by
  funext b
  rw [WellFormed.checkBinding, WellFormed.checkBinding, h.hasScope]

theorem checkName : checkName g = WellFormed.checkName f := by
  funext location span name
  rw [WellFormed.checkName, WellFormed.checkName, h.hasBinding]

theorem checkOp (location : Location) (span : Span) (op : Op) :
    checkOp g k'.types (k'.signaturesFor g) location span op =
      WellFormed.checkOp f k.types (k.signaturesFor f) location span op := by
  cases op with
  | borrow x kind ref =>
    rw [WellFormed.checkOp, WellFormed.checkOp, h.checkName]
    obtain ⟨b, b', hb, hb', hsame⟩ | ⟨hb, hb'⟩ := h.lookup ref
    · have hisRef :=
        congrArg (· >>= fun isRef => ensure isRef ⟨.notReferenceTyped ref, some location, span⟩)
          hsame.type.isRef
      simp only [bind_assoc, pure_bind] at hisRef
      simp only [hb, hb', hisRef]
    · rw [hb, hb']
  | call c => simp only [WellFormed.checkOp, checkCall, h.callee, h.checkName]
  | endScope scope => simp only [WellFormed.checkOp, h.hasScope]
  | unsupported name => rfl
  | _ => simp only [WellFormed.checkOp, h.checkName]

theorem checkBlock : checkBlock g k'.types (k'.signaturesFor g) =
    WellFormed.checkBlock f k.types (k.signaturesFor f) := by
  have hbody : ∀ label n body, checkBody g k'.types (k'.signaturesFor g) label n body =
      checkBody f k.types (k.signaturesFor f) label n body := by
    intro label n body
    induction body generalizing n with
    | nil => rfl
    | cons i rest ih => simp only [checkBody, h.checkOp, h.name, ih]
  have hending : ∀ label location ending,
      checkEnding g label location ending = checkEnding f label location ending := by
    intro label location ending
    cases ending with
    | none => rfl
    | some e =>
      obtain ⟨terminator, span⟩ := e
      cases terminator with
      | unsupported name => rfl
      | _ => simp only [checkEnding, h.hasBlock, h.checkName]
  funext b
  rw [WellFormed.checkBlock, WellFormed.checkBlock, hbody, hending, h.name]

end WellFormed

end Checker.SameLookups

end Ownership

import Ownership.Proofs.Liveness
import Ownership.Proofs.Lookups
import Ownership.Proofs.TypeExtension

/-! # Functions that match across tables

References that borrows introduce get types that are registered when a function is made ready to be
checked, so the numbers of these types depend on what the table has by then. Two types match if both
are the same type of a table that both tables have grown from, or both are references to types that
match. Functions whose bindings have matching types are checked with the same result.
-/
namespace Ownership
open Std

namespace Except
variable {α β γ : Type} {S : α → β → Prop} {l : List α} {l' : List β}

theorem forM_rel {g : α → Except Fault Unit} {g' : β → Except Fault Unit} (h : List.Forall₂ S l l')
    (hg : ∀ a b, S a b → g' b = g a) : l'.forM g' = l.forM g := by
  induction h with
  | nil => rfl
  | cons hab _ ih => rw [List.forM, List.forM, hg _ _ hab, ih]

theorem foldlM_rel {g : γ → α → Except Fault γ} {g' : γ → β → Except Fault γ}
    (h : List.Forall₂ S l l') (hg : ∀ a b, S a b → ∀ c, g' c b = g c a) (c : γ) :
    l'.foldlM g' c = l.foldlM g c := by
  induction h generalizing c with
  | nil => rfl
  | cons hab _ ih =>
    rw [List.foldlM_cons, List.foldlM_cons, hg _ _ hab]
    simp only [ih]

end Except

namespace TypeTable

def Complete (t : TypeTable) : Prop := ∀ id d, t.fetch id = .ok d → ∀ m ∈ d.members, t.Defines m

/-- The second table has the types of the first, and else references without a lifetime. -/
structure GrownFrom (t t' : TypeTable) : Prop where
  keeps : t.Extends t'
  added : ∀ id d, t'.fetch id = .ok d → t.fetch id = .ok d ∨
    ∃ inner exclusive, d = .ref inner exclusive none

variable {t t₀ t' u u' : TypeTable} {id id' : TypeId}

theorem GrownFrom.refl (t : TypeTable) : t.GrownFrom t := ⟨.refl t, fun _ _ h => Or.inl h⟩

theorem GrownFrom.trans (h : t.GrownFrom t') (h' : t'.GrownFrom u) : t.GrownFrom u where
  keeps := h.keeps.trans h'.keeps
  added id d hd := (h'.added id d hd).elim (h.added id d) Or.inr

theorem grownFrom_ref (t : TypeTable) (inner : TypeId) (exclusive : Bool) :
    t.GrownFrom (t.ref inner exclusive none).1 where
  keeps := (t.intern_spec _).1
  added _ _ hd := (fetch_of_intern hd).imp_right fun h => ⟨inner, exclusive, h⟩

theorem Complete.nests (h : t.Complete) (hid : t.Defines id) : t.Nests id := by
  intro m hm
  cases hm with
  | refl => exact hid
  | tail _ hwraps =>
    rcases hwraps with ⟨_, _, hd⟩ | hd
    · exact h _ _ hd m (by simp [TypeDef.members])
    · exact h _ _ hd m (by simp [TypeDef.members])

theorem Complete.holds (h : t.Complete) (hid : t.Defines id) : t.Holds id := by
  intro m hm
  cases hm with
  | refl => exact hid
  | tail _ hcontains =>
    rcases hcontains with ⟨_, _, _, hd, hm⟩ | ⟨_, _, hd, hm⟩
    · exact h _ _ hd m hm
    · exact h _ _ hd m hm

theorem GrownFrom.holds (h₀ : t₀.Complete) (h : t₀.GrownFrom t) (hid : t.Defines id) :
    t.Holds id := by
  intro m hm
  cases hm with
  | refl => exact hid
  | tail _ hcontains =>
    rcases hcontains with ⟨_, _, _, hd, hm⟩ | ⟨_, _, hd, hm⟩
    · obtain hold | ⟨_, _, ⟨⟩⟩ := h.added _ _ hd
      exact h.keeps.defines (h₀ _ _ hold m hm)
    · obtain hold | ⟨_, _, ⟨⟩⟩ := h.added _ _ hd
      exact h.keeps.defines (h₀ _ _ hold m hm)

/-- The types are one type of a common table, or references of one kind to types that match. -/
inductive Matches (t₀ t t' : TypeTable) : TypeId → TypeId → Prop
  | shared {id : TypeId} (hid : t₀.Defines id) : Matches t₀ t t' id id
  | ref {id id' inner inner' : TypeId} {exclusive : Bool}
      (hid : t.fetch id = .ok (.ref inner exclusive none))
    (hid' : t'.fetch id' = .ok (.ref inner' exclusive none))
    (hinner : Matches t₀ t t' inner inner') :
    Matches t₀ t t' id id'

theorem Matches.mono (hu : t.Extends u) (hu' : t'.Extends u') (h : Matches t₀ t t' id id') :
    Matches t₀ u u' id id' := by
  induction h with
  | shared hid => exact .shared hid
  | ref hid hid' _ ih => exact .ref (hu _ _ hid) (hu' _ _ hid') ih

section Common
variable (h₀ : t₀.Complete) (ht : t₀.Extends t) (ht' : t₀.Extends t')
include h₀ ht ht'

theorem isDuplicable_common (hid : t₀.Defines id) : t'.isDuplicable id = t.isDuplicable id := by
  rw [isDuplicable_extends ht (h₀.holds hid), isDuplicable_extends ht' (h₀.holds hid)]

theorem Matches.display (h : Matches t₀ t t' id id') :
    t.Nests id ∧ t'.Nests id' ∧ t'.display id' = t.display id := by
  induction h with
  | shared hid =>
    have hnests := h₀.nests hid
    exact ⟨hnests.extends ht, hnests.extends ht',
      (display_extends ht' hnests).trans (display_extends ht hnests).symm⟩
  | ref hid hid' _ ih =>
    obtain ⟨hnests, hnests', hdisplay⟩ := ih
    refine ⟨nests_ref hid hnests, nests_ref hid' hnests', ?_⟩
    rw [display_ref hid hnests, display_ref hid' hnests', hdisplay]

/-- Types that match cannot be told apart by operations. -/
theorem Matches.sameType (h : Matches t₀ t t' id id') : t.SameType t' id id' where
  isRef := by
    cases h with
    | shared hid => rw [ht.fetch hid, ht'.fetch hid]
    | ref hid hid' _ => rw [hid, hid']; rfl
  isExclusiveRef := by
    cases h with
    | shared hid => rw [ht.fetch hid, ht'.fetch hid]
    | ref hid hid' _ => rw [hid, hid']; rfl
  isDuplicable := by
    cases h with
    | shared hid => exact isDuplicable_common h₀ ht ht' hid
    | ref hid hid' _ => rw [isDuplicable_ref hid, isDuplicable_ref hid']
  display := (h.display h₀ ht ht').2.2

end Common

end TypeTable

structure Signature.DefinedIn (t : TypeTable) (s : Signature) : Prop where
  params : ∀ p ∈ s.params, t.Defines p.type
  returns : ∀ id ∈ s.returns, t.Defines id

theorem Signature.DefinedIn.sameIn {s : Signature} {t₀ t t' : TypeTable} (h₀ : t₀.Complete)
    (ht : t₀.Extends t) (ht' : t₀.Extends t') (h : s.DefinedIn t₀) : s.SameIn t t' where
  params p hp := by rw [ht.fetch (h.params p hp), ht'.fetch (h.params p hp)]
  returns id hid := by rw [ht.fetch (h.returns id hid), ht'.fetch (h.returns id hid)]
  isDuplicable p hp := TypeTable.isDuplicable_common h₀ ht ht' (h.params p hp)

structure Binding.Matches (t₀ t t' : TypeTable) (b b' : Binding) : Prop where
  name : b'.name = b.name
  mutable : b'.mutable = b.mutable
  scope : b'.scope = b.scope
  span : b'.span = b.span
  type : t₀.Matches t t' b.type b'.type

theorem Registry.rel_get? {α : Type} [Named α] {S : α → α → Prop}
    (hname : ∀ a b, S a b → Named.name b = Named.name a) {r r' : Registry α}
    (h : List.Forall₂ S r.entries r'.entries) (n : String) :
    Option.Rel S (r.get? n) (r'.get? n) := by
  rw [get?, get?]
  generalize r.entries = l at h ⊢
  generalize r'.entries = l' at h ⊢
  induction h with
  | nil => exact .none
  | @cons a b _ _ hab _ ih =>
    rw [List.find?_cons, List.find?_cons, hname a b hab]
    cases Named.name a == n with
    | true => exact .some hab
    | false => exact ih

structure Function.Matches (t₀ t t' : TypeTable) (f g : Function) : Prop where
  signature : g.signature = f.signature
  scopes : g.scopes = f.scopes
  blocks : g.blocks = f.blocks
  entry : g.entry = f.entry
  bindings : List.Forall₂ (Binding.Matches t₀ t t') f.bindings.entries g.bindings.entries

namespace Function.Matches
variable {t₀ : TypeTable} {k k' : Checker} {f g : Function}

theorem name {t t' : TypeTable} (h : f.Matches t₀ t t' g) : g.name = f.name :=
  congrArg Signature.name h.signature

theorem drops {t t' : TypeTable} (h : f.Matches t₀ t t' g) (scope x : String) :
    g.Drops scope x ↔ f.Drops scope x := by
  have hencloses : g.Encloses = f.Encloses := by
    funext s x
    rw [Encloses, Encloses, h.scopes]
  rw [Drops, Drops, hencloses]
  have hbindings := h.bindings
  generalize f.bindings.entries = bs at hbindings
  generalize g.bindings.entries = bs' at hbindings
  induction hbindings with
  | nil => simp
  | cons hb _ ih => simp only [List.exists_mem_cons_iff, ih, hb.name, hb.scope]

section Check
variable (h₀ : t₀.Complete) (ht : t₀.Extends k.types) (ht' : t₀.Extends k'.types)
    (h : f.Matches t₀ k.types k'.types g)
variable (hborrow : k'.autoBorrow = k.autoBorrow) (hsignature : f.signature.DefinedIn t₀)
variable (hcallee : ∀ n, (k'.signaturesFor g).get? n = (k.signaturesFor f).get? n)
variable (hcallees : ∀ n s, (k.signaturesFor f).get? n = some s → s.DefinedIn t₀)
include h₀ ht ht' h

include hborrow hsignature hcallee hcallees in
theorem sameLookups : k.SameLookups k' f g where
  autoBorrow := hborrow
  binding x := by
    rw [binding, binding]
    have hget := Registry.rel_get? (fun _ _ hb => hb.name) h.bindings x
    generalize f.bindings.get? x = found at hget ⊢
    generalize g.bindings.get? x = found' at hget ⊢
    cases hget with
    | none => exact Or.inr ⟨_, rfl, rfl⟩
    | some hb => exact .pure ⟨hb.mutable, hb.type.sameType h₀ ht ht'⟩
  size := h.bindings.length_eq.symm
  drops := h.drops
  signature := h.signature
  types := hsignature.sameIn h₀ ht ht'
  callee := hcallee
  calleeTypes n s hs := (hcallees n s hs).sameIn h₀ ht ht'
  entryLabel := by rw [entryLabel, entryLabel, h.entry, h.blocks]
  block l := by rw [h.blocks]
  blockCount := by rw [h.blocks]
  instructionCount := by rw [instructions, instructions, h.blocks]
  scope s := by rw [h.scopes]
  scopeCount := by rw [h.scopes]

include hborrow hsignature hcallee hcallees in
theorem checkWellFormed : WellFormed.checkFunction g k'.types (k'.signaturesFor g) =
    WellFormed.checkFunction f k.types (k.signaturesFor f) := by
  have hsame := sameLookups h₀ ht ht' h hborrow hsignature hcallee hcallees
  have hbindings : g.bindings.entries.forM (WellFormed.checkBinding f) =
      f.bindings.entries.forM (WellFormed.checkBinding f) :=
    Except.forM_rel h.bindings fun b b' hb => by
      rw [WellFormed.checkBinding, WellFormed.checkBinding, hb.name, hb.scope, hb.span]
  rw [WellFormed.checkFunction, WellFormed.checkFunction, hsame.checkSignature, hsame.checkEntry,
    hsame.checkScope, hsame.checkBinding, hsame.checkBlock, hbindings, h.scopes, h.blocks]

theorem refs : g.refs k'.types = f.refs k.types := by
  refine Except.foldlM_rel h.bindings (fun b b' hb refs => ?_) ∅
  have hisRef := (hb.type.sameType h₀ ht ht').isRef
  have hstep :=
    congrArg (· >>= fun isRef => if isRef then pure (refs.insert b.name) else pure refs) hisRef
  simpa only [bind_assoc, pure_bind, hb.name] using hstep

/-- The references are found to be the same. -/
theorem compute (policy : RegionPolicy) : Regions.compute g k'.types policy =
    (Regions.compute f k.types policy).map fun r => { r with function := g } := by
  have htargets : g.checkTargets = f.checkTargets := by simp only [checkTargets, block, h.blocks]
  have hsites : Regions.sitesOf g = Regions.sitesOf f := by
    funext refs
    simp only [Regions.sitesOf, useSites, h.blocks, h.name]
  have hlive : Liveness.live? g = Liveness.live? f := by
    funext refs
    simp only [Liveness.live?, h.blocks]
  have hentry : Witness.entry g = Witness.entry f := by
    funext live table b
    simp only [Witness.entry, Witness.ofBlock?, h.name]
  have hwitness : Witness.table? g = Witness.table? f := by
    funext refs live sites
    simp only [Witness.table?, Witness.round, Witness.tables, Witness.start, hentry, h.blocks]
  rw [Regions.compute, Regions.compute, refs h₀ ht ht' h, htargets, hsites, hlive,
    hwitness, h.blocks]
  cases hrefs : f.refs k.types with
  | error e => rfl
  | ok refs =>
    cases hcheck : f.checkTargets with
    | error e => rfl
    | ok u =>
      simp only [bind, Except.bind]
      cases Liveness.live? f refs with
      | none => rfl
      | some live =>
        dsimp only
        cases Witness.table? f refs _ _ with
        | none => rfl
        | some table => rfl

include hborrow hsignature hcallee hcallees in
/-- Functions that match are checked with the same result. -/
theorem checkFunction_eq (hpolicy : k'.policy = k.policy) :
    k'.checkFunction g = k.checkFunction f := by
  have hsame := sameLookups h₀ ht ht' h hborrow hsignature hcallee hcallees
  have hwell := checkWellFormed h₀ ht ht' h hborrow hsignature hcallee hcallees
  have hcompute : ∀ {x}, Regions.compute f k.types k.policy = x →
      Regions.compute g k'.types k'.policy = x.map fun r => { r with function := g } := by
    rintro _ rfl
    rw [hpolicy, compute h₀ ht ht' h]
  have herror : ∀ e, k.analyze f = .error e → k'.analyze g = .error e →
      k'.checkFunction g = k.checkFunction f := by
    intro e ha ha'
    rw [Checker.checkFunction, Checker.checkFunction, ha, ha', h.name]
    cases e <;> rfl
  cases hf : WellFormed.checkFunction f k.types (k.signaturesFor f) with
  | error e => exact herror e (Except.bind_of_error hf) (Except.bind_of_error (hwell.trans hf))
  | ok u =>
    obtain ⟨entry, rest, horder, -⟩ := reversePostorder_spec (WellFormed.checkFunction_inv hf)
    have horder' := hsame.reversePostorder.trans horder
    cases hr : Regions.compute f k.types k.policy with
    | error e =>
      refine herror e ?_ ?_
      · rw [Checker.analyze, Except.bind_of_ok hf, Except.bind_of_ok horder,
          Except.bind_of_error hr]
      · rw [Checker.analyze, Except.bind_of_ok (hwell.trans hf), Except.bind_of_ok horder',
          Except.bind_of_error (hcompute hr)]
    | ok r =>
      obtain ⟨hcomputed, -⟩ := Regions.compute_inv hr
      have hagree : r.AgreeOn f.Reachable (fun _ => True) { r with function := g } :=
        { isHeldFast := fun _ _ => rfl
          isLiveIn := fun _ _ _ => rfl
          isLiveAfter := fun _ _ _ _ => rfl
          explain := fun loan span l n _ => by
            simp only [Regions.nextUse, Regions.successors, Regions.isLiveAfter,
              hcomputed.function, h.blocks] }
      have hmirrors := hsame.mirrors (fun _ => rfl) hagree
      have halike := hmirrors.checkFunction hf (hwell.trans hf) hr (hcompute hr)
        hsame.reversePostorder hsame.visitBound
      exact (halike.mono fun report report' hlike => (FunctionReport.Like.eq hlike).symm).eq

end Check

end Function.Matches

end Ownership

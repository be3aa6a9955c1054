import Ownership.Proofs.Agreement
import Ownership.Proofs.Walk

/-! # Functions without their unreachable blocks

Blocks that control never comes to can be taken out of a function. What is left is a function with
the same entry, it is well formed if the whole function is, and its blocks come in the same order.
-/
namespace Ownership
open Std

namespace Registry
variable {α : Type} [Named α] {r : Registry α} {p : α → Bool} {n : String} {a : α}

def restrict (r : Registry α) (p : α → Bool) : Registry α :=
  ⟨r.entries.filter p, r.distinct.sublist (List.filter_sublist.map Named.name)⟩

theorem mem_restrict : a ∈ (r.restrict p).entries ↔ a ∈ r.entries ∧ p a = true := List.mem_filter

theorem get?_restrict (hp : ∀ a, r.get? n = some a → p a = true) :
    (r.restrict p).get? n = r.get? n := by
  cases hn : r.get? n with
  | none =>
    have hnone := List.find?_eq_none.mp hn
    exact List.find?_eq_none.mpr fun a ha => hnone a (mem_restrict.mp ha).1
  | some a =>
    have hmem : a ∈ (r.restrict p).entries := mem_restrict.mpr ⟨mem_of_get?_eq_some hn, hp a hn⟩
    rw [← name_of_get?_eq_some hn]
    exact get?_eq_some_of_mem hmem

end Registry

namespace Function
variable {f : Function} {types : TypeTable} {signatures : Registry Signature} {l : String}

def reached (f : Function) : List String :=
  match f.reversePostorder with
  | .ok order => order
  | .error _ => []

def pruned (f : Function) :
    Function := { f with blocks := f.blocks.restrict fun b => f.reached.contains b.label }

section Fits
variable (hf : f.Fits types signatures)
include hf

theorem mem_reached : l ∈ f.reached ↔ f.Reachable l := by
  obtain ⟨entry, rest, horder, -, -, hmem⟩ := reversePostorder_spec hf
  rw [reached, horder]
  exact hmem l

/-- Exactly the reachable blocks are left. -/
theorem mem_pruned {b : Block} : b ∈ f.pruned.blocks.entries ↔ b ∈ f.blocks.entries ∧
    f.Reachable b.label := by
  refine Registry.mem_restrict.trans (and_congr_right fun _ => ?_)
  rw [← mem_reached hf, List.contains_iff_mem]

theorem get?_pruned (hl : f.Reachable l) : f.pruned.blocks.get? l = f.blocks.get? l := by
  refine Registry.get?_restrict fun b hb => List.contains_iff_mem.mpr ((mem_reached hf).mpr ?_)
  have hlabel : b.label = l := Registry.name_of_get?_eq_some hb
  rwa [hlabel]

theorem entryLabel_pruned : f.pruned.entryLabel = f.entryLabel := by
  obtain ⟨entry, -, hentry, -⟩ := hf.entry
  have hreach : f.Reachable entry := ⟨entry, hentry, .refl⟩
  have hgiven : f.pruned.entry = f.entry := rfl
  unfold entryLabel at hentry ⊢
  rw [hgiven]
  cases he : f.entry with
  | some l => rfl
  | none =>
    rw [he] at hentry
    change f.pruned.blocks.names.head? = f.blocks.names.head?
    -- the first block is the entry, so it stays the first
    cases hblocks : f.blocks.entries with
    | nil =>
      rw [Registry.names, hblocks] at hentry
      cases hentry
    | cons b rest =>
      have hb : b.label = entry := by
        rw [Registry.names, hblocks] at hentry
        exact Option.some.inj hentry
      have hkept : f.reached.contains b.label = true :=
        List.contains_iff_mem.mpr ((mem_reached hf).mpr (hb ▸ hreach))
      have hfirst : f.pruned.blocks.entries = b :: rest.filter fun b =>
        f.reached.contains b.label := by
          change f.blocks.entries.filter _ = _
          rw [hblocks, List.filter_cons, if_pos hkept]
      rw [Registry.names, Registry.names, hfirst, hblocks]
      rfl

theorem successors_pruned (hl : f.Reachable l) : f.pruned.successors l = f.successors l := by
  rw [successors, successors, block, block, get?_pruned hf hl]

/-- A walk from a block that can be reached never looks at another one. -/
theorem walkFrom_pruned (n : Nat) (w : Walk) (hl : f.Reachable l) :
    f.pruned.walkFrom n w l = f.walkFrom n w l := by
  induction n generalizing w l with
  | zero => rfl
  | succ n ih =>
    rw [walkFrom, walkFrom, successors_pruned hf hl]
    split
    · rfl
    · cases htargets : f.successors l with
      | error e => rfl
      | ok targets =>
        obtain ⟨b, hb, rfl⟩ := successors_iff.mp htargets
        have hsame : ∀ m ∈ b.successors, ∀ w, f.pruned.walkFrom n w m = f.walkFrom n w m :=
          fun m hm w => ih w (hl.step ⟨b, hb, hm⟩)
        change (List.foldlM (f.pruned.walkFrom n) _ b.successors >>= _) = _
        rw [Except.foldlM_congr b.successors hsame]
        rfl

end Fits

/-- A walk that ends does the same if more blocks may be open. -/
theorem walkFrom_succ {n : Nat} {w w' : Walk} (h : f.walkFrom n w l = .ok w') :
    f.walkFrom (n + 1) w l = .ok w' := by
  induction n generalizing w w' l with
  | zero => cases h
  | succ n ih =>
    rw [walkFrom] at h ⊢
    split at h
    · rename_i hseen
      rw [if_pos hseen]
      exact h
    · rename_i hseen
      rw [if_neg hseen]
      obtain ⟨targets, htargets, h⟩ := Except.bind_inv h
      obtain ⟨w'', hfold, h⟩ := Except.bind_inv h
      have hmore : ∀ (targets : List String) (w w'' : Walk),
          targets.foldlM (f.walkFrom n) w = .ok w'' →
          targets.foldlM (f.walkFrom (n + 1)) w = .ok w'' := by
        intro targets
        induction targets with
        | nil => exact fun w w'' h => h
        | cons m targets ihl =>
          intro w w'' h
          rw [List.foldlM_cons] at h ⊢
          obtain ⟨u, hu, h⟩ := Except.bind_inv h
          exact (Except.bind_of_ok (ih hu)).trans (ihl u w'' h)
      exact (Except.bind_of_ok htargets).trans
        ((Except.bind_of_ok (hmore targets _ w'' hfold)).trans h)

theorem walkFrom_le {n n' : Nat} (hn : n ≤ n') {w w' : Walk} (h : f.walkFrom n w l = .ok w') :
    f.walkFrom n' w l = .ok w' := by
  induction hn with
  | refl => exact h
  | step _ ih => exact walkFrom_succ ih

theorem size_pruned_le : f.pruned.blocks.size ≤ f.blocks.size := List.length_filter_le _ _

end Function

namespace WellFormed
variable {f : Function} {types : TypeTable} {signatures : Registry Signature}

theorem climb_pruned (start : String) (n : Nat) (s : String) :
    climb f.pruned start n s = climb f start n s := by
  induction n generalizing s with
  | zero => rfl
  | succ n ih =>
    have hscopes : f.pruned.scopes = f.scopes := rfl
    rw [climb, climb, hscopes]
    cases f.scopes.get? s with
    | none => rfl
    | some scope =>
      cases hparent : scope.parent with
      | none => simp only [hparent]
      | some p => simp only [hparent, ih]

theorem checkBody_pruned (label : String) (n : Int) (body : List Instruction) :
    checkBody f.pruned types signatures label n body =
      checkBody f types signatures label n body := by
  induction body generalizing n with
  | nil => rfl
  | cons i body ih =>
    have hop : ∀ location, checkOp f.pruned types signatures location i.span i.op =
        checkOp f types signatures location i.span i.op := by
      intro location
      cases i.op <;> rfl
    rw [checkBody, checkBody, ih, hop]
    rfl

theorem checkEntry_of_get? {entry : String} {b : Block} (hentry : f.entryLabel = some entry)
    (hb : f.blocks.get? entry = some b) : checkEntry f = .ok () := by
  have hmem := Registry.mem_of_get?_eq_some hb
  have hsize : (f.blocks.size != 0) = true :=
    bne_iff_ne.mpr (Nat.ne_of_gt (List.length_pos_of_mem hmem))
  rw [checkEntry, hentry]
  refine (Except.bind_of_ok (ensure_eq_ok.mpr hsize)).trans (ensure_eq_ok.mpr ?_)
  exact Registry.contains_iff_get?.mpr ⟨b, hb⟩

/-- The targets of a block that can be reached can be reached. -/
theorem checkEnding_pruned (hf : f.Fits types signatures) {b : Block} (hb : b ∈ f.blocks.entries)
    (hreach : f.Reachable b.label) {location : Location}
    (h : checkEnding f b.label location b.ending = .ok ()) :
    checkEnding f.pruned b.label location b.ending = .ok () := by
  have hget : f.blocks.get? b.label = some b := Registry.get?_eq_some_of_mem hb
  have htargets : ∀ e, b.ending = some e →
      ∀ m ∈ e.terminator.targets, f.pruned.blocks.contains m = true := by
    intro e he m hm
    have hm : m ∈ b.successors := by rwa [Block.successors, he]
    obtain ⟨b', hb'⟩ := hf.successor hget hm
    exact Registry.contains_iff_get?.mpr
      ⟨b', (Function.get?_pruned hf (hreach.step ⟨b, hget, hm⟩)).trans hb'⟩
  cases hending : b.ending with
  | none => rw [hending] at h; cases h
  | some e =>
    rw [hending] at h
    have htargets := htargets e hending
    obtain ⟨terminator, span⟩ := e
    cases terminator with
    | unsupported name => cases h
    | _ =>
      obtain ⟨_, -, huses⟩ := Except.bind_inv h
      refine (Except.bind_of_ok
        (Except.forM_eq_ok.mpr fun m hm => ensure_eq_ok.mpr (htargets m hm))).trans ?_
      exact huses

/-- What is left of a well-formed function is well formed. -/
theorem checkFunction_pruned (h : checkFunction f types signatures = .ok ()) :
    checkFunction f.pruned types signatures = .ok () := by
  have hf := checkFunction_inv h
  obtain ⟨entry, b, hentry, hb⟩ := hf.entry
  have hreach : f.Reachable entry := ⟨entry, hentry, .refl⟩
  obtain ⟨_, hsig, h⟩ := Except.bind_inv h
  obtain ⟨_, -, h⟩ := Except.bind_inv h
  obtain ⟨_, hscopes, h⟩ := Except.bind_inv h
  obtain ⟨_, hbindings, hblocks⟩ := Except.bind_inv h
  have hentry' : checkEntry f.pruned = .ok () :=
    checkEntry_of_get? ((Function.entryLabel_pruned hf).trans hentry)
      ((Function.get?_pruned hf hreach).trans hb)
  have hscopes' : f.pruned.scopes.entries.forM (checkScope f.pruned) = .ok () := by
    refine Except.forM_eq_ok.mpr fun s hs => ?_
    have hscope := Except.forM_eq_ok.mp hscopes s hs
    unfold checkScope at hscope ⊢
    simp only [climb_pruned]
    exact hscope
  have hbindings' : f.pruned.bindings.entries.forM (checkBinding f.pruned) = .ok () := hbindings
  have hblocks' : f.pruned.blocks.entries.forM (checkBlock f.pruned types signatures) = .ok () := by
    refine Except.forM_eq_ok.mpr fun b hb => ?_
    obtain ⟨hmem, hreach⟩ := (Function.mem_pruned hf).mp hb
    obtain ⟨_, hbody, hending⟩ := Except.bind_inv (Except.forM_eq_ok.mp hblocks b hmem)
    refine (Except.bind_of_ok ((checkBody_pruned b.label 0 b.body).trans hbody)).trans ?_
    exact checkEnding_pruned hf hmem hreach hending
  exact (Except.bind_of_ok hsig).trans
    ((Except.bind_of_ok hentry').trans ((Except.bind_of_ok hscopes').trans
    ((Except.bind_of_ok hbindings').trans hblocks')))

end WellFormed

/-- The blocks that are left come in the order they had. -/
theorem Function.reversePostorder_pruned {f : Function} {types : TypeTable}
    {signatures : Registry Signature} (h : WellFormed.checkFunction f types signatures = .ok ()) :
    f.pruned.reversePostorder = f.reversePostorder := by
  have hf := WellFormed.checkFunction_inv h
  have hf' := WellFormed.checkFunction_inv (WellFormed.checkFunction_pruned h)
  obtain ⟨entry, -, hentry, -⟩ := hf.entry
  have hentry' := (entryLabel_pruned hf).trans hentry
  have hreach : f.Reachable entry := ⟨entry, hentry, .refl⟩
  obtain ⟨_, _, horder, -⟩ := reversePostorder_spec hf'
  obtain ⟨w, hw, heq⟩ := (reversePostorder_iff hentry').mp horder
  have hwhole : f.walkFrom (f.blocks.size + 1) {} entry = .ok w := by
    rw [walkFrom_pruned hf _ _ hreach] at hw
    exact walkFrom_le (Nat.succ_le_succ size_pruned_le) hw
  rw [horder, (reversePostorder_iff hentry).mpr ⟨w, hwhole, heq⟩]

end Ownership

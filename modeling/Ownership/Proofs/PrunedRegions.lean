import Ownership.Proofs.Liveness
import Ownership.Proofs.Mirror
import Ownership.Proofs.Pruning

/-! # References without unreachable blocks

What is live in a block, and the next use that is met from it, comes from the blocks that control
goes to from there. So unreachable blocks have no say in it where control comes. They have one in
whether a reference is used at all.
-/
namespace Ownership
open Std

theorem find?_flatMap_filter {α β : Type} {l : List α} {keep : α → Bool} {h : α → List β}
    {p : β → Bool} (hdrop : ∀ a ∈ l, keep a ≠ true → ∀ y ∈ h a, p y = false) :
    ((l.filter keep).flatMap h).find? p = (l.flatMap h).find? p := by
  induction l with
  | nil => rfl
  | cons a l ih =>
    obtain ⟨ha, hl⟩ := List.forall_mem_cons.mp hdrop
    rw [List.flatMap_cons, List.find?_append, ← ih hl, List.filter_cons]
    split
    · rw [List.flatMap_cons, List.find?_append]
    · rename_i hkeep
      have hnone : (h a).find? p = none :=
        List.find?_eq_none.mpr fun y hy => by simp [ha hkeep y hy]
      rw [hnone, Option.none_or]

namespace Block

theorem block_of_sitesFrom {b : Block} {function ref : String} {site : UseSite} (n : Int)
    (body : List Instruction) (h : site ∈ b.sitesFrom function ref n body) :
    site.location.block = b.label := by
  induction body generalizing n with
  | nil =>
    rw [sitesFrom] at h
    split at h
    · rw [List.mem_singleton.mp h]
    · cases h
  | cons i body ih =>
    rw [sitesFrom] at h
    split at h
    · rcases List.mem_cons.mp h with rfl | h
      · rfl
      · exact ih (n + 1) h
    · exact ih (n + 1) h

end Block

namespace Function
variable {f : Function} {types : TypeTable} {signatures : Registry Signature} {l x : String}

def DefinedWhereReached (f : Function) (x : String) : Prop :=
  ∃ l b, f.Reachable l ∧ f.blocks.get? l = some b ∧ ∃ i ∈ b.body, x ∈ i.op.defs

theorem Reachable.defines {b : Block} (hl : f.Reachable l) (hb : f.blocks.get? l = some b) :
    ∀ i ∈ b.body, ∀ d ∈ i.op.defs, f.DefinedWhereReached d :=
  fun i hi _ hd => ⟨l, b, hl, hb, i, hi, hd⟩

/-- Every reference that is defined in a block that can be reached, and used at all, is used in such
a block. -/
def UsedWhereReached (f : Function) (types : TypeTable) : Prop :=
  ∀ x, f.IsRef types x → f.DefinedWhereReached x → f.useSites x ≠ [] →
    ∃ site ∈ f.useSites x, f.Reachable site.location.block

theorem useSites_block {site : UseSite} (h : site ∈ f.useSites x) : ∃ b ∈ f.blocks.entries,
    site.location.block = b.label ∧ site ∈ b.sitesFrom f.name x 0 b.body := by
  obtain ⟨b, hb, hsite⟩ := List.mem_flatMap.mp h
  exact ⟨b, hb, Block.block_of_sitesFrom 0 b.body hsite, hsite⟩

section Fits
variable (hf : f.Fits types signatures)
include hf

theorem mem_useSites_pruned {site : UseSite} :
    site ∈ f.pruned.useSites x ↔ site ∈ f.useSites x ∧ f.Reachable site.location.block := by
  constructor
  · intro h
    obtain ⟨b, hb, hlabel, hsite⟩ := useSites_block h
    obtain ⟨hmem, hreach⟩ := (mem_pruned hf).mp hb
    exact ⟨List.mem_flatMap.mpr ⟨b, hmem, hsite⟩, hlabel ▸ hreach⟩
  · rintro ⟨h, hreach⟩
    obtain ⟨b, hb, hlabel, hsite⟩ := useSites_block h
    exact List.mem_flatMap.mpr ⟨b, (mem_pruned hf).mpr ⟨hb, hlabel ▸ hreach⟩, hsite⟩

/-- The next use in a block that can be reached is found among the uses that are left. -/
theorem find?_useSites_pruned (hl : f.Reachable l) (n : Int) :
    (f.pruned.useSites x).find? (fun s => s.location.block == l && n < s.location.index) =
      (f.useSites x).find? fun s => s.location.block == l && n < s.location.index := by
  refine find?_flatMap_filter fun b _ hdrop site hsite => ?_
  have hlabel : site.location.block = b.label := Block.block_of_sitesFrom 0 b.body hsite
  have hne : site.location.block ≠ l := by
    rw [hlabel]
    rintro rfl
    exact hdrop (List.contains_iff_mem.mpr ((mem_reached hf).mpr hl))
  simp [hne]

end Fits

end Function

section Tables
variable {α : Type} {f : Function} {types : TypeTable} {signatures : Registry Signature}

/-- Sweeps over all blocks and sweeps over those that can be reached come to rest with the same
entries for the latter, if the entry of a block is computed from those of its successors. -/
theorem settled_pruned [DecidableEq (NameMap α)] (hf : f.Fits types signatures)
    {entry entry' : NameMap α → Block → α} {e : α} {n n' : Nat} {u u' : NameMap α}
    (hentry : ∀ t t', SameOn f.Reachable t t' → ∀ b : Block, f.Reachable b.label →
      (∀ m ∈ b.successors, f.Reachable m) → entry' t' b = entry t b)
    (hu : settled? (sweep f.blocks.entries.reverse entry) n
      (.ofList (f.blocks.names.map fun l => (l, e))) = some u)
    (hu' : settled? (sweep f.pruned.blocks.entries.reverse entry') n'
      (.ofList (f.pruned.blocks.names.map fun l => (l, e))) = some u') :
      SameOn f.Reachable u u' := by
  refine SameOn.settled (fun t t' h => ?_) (fun l hl => ?_) hu hu'
  · have hitems : f.pruned.blocks.entries.reverse =
        f.blocks.entries.reverse.filter fun b => f.reached.contains b.label :=
          (List.filter_reverse ..).symm
    rw [hitems]
    refine h.sweep (fun b _ => ?_) fun t t' h b hb hreach => ?_
    · rw [List.contains_iff_mem]
      exact Function.mem_reached hf
    · have hget : f.blocks.get? b.label = some b :=
        Registry.get?_eq_some_of_mem (List.mem_reverse.mp hb)
      exact hentry t t' h b hreach fun m hm => Function.Reachable.step hreach ⟨b, hget, hm⟩
  · obtain ⟨b, hb⟩ := hf.reachable hl
    have hin : l ∈ f.blocks.names :=
      Registry.contains_iff_mem_names.mp (Registry.contains_iff_get?.mpr ⟨b, hb⟩)
    have hin' : l ∈ f.pruned.blocks.names := Registry.contains_iff_mem_names.mp
      (Registry.contains_iff_get?.mpr ⟨b, (Function.get?_pruned hf hl).trans hb⟩)
    rw [Liveness.getElem?_start hin, Liveness.getElem?_start hin']

variable {refs : Names} {live live' : NameMap Names}

theorem Liveness.out_agree {R : String → Prop} (h : SameOn R live live') {b : Block}
    (hb : ∀ m ∈ b.successors, R m) : out live' b = out live b :=
  List.foldl_ext _ _ _ fun known m hm => by rw [h.getD (hb m hm)]

/-- The references that are live where control comes are the same without unreachable blocks. -/
theorem Liveness.liveIn_pruned (hf : f.Fits types signatures) (h : liveIn? f refs = some live)
    (h' : liveIn? f.pruned refs = some live') : SameOn f.Reachable live live' := by
  rw [liveIn?_eq] at h h'
  refine settled_pruned hf (fun t t' ht b _ hsuccessors => ?_) h h'
  rw [out_agree ht hsuccessors]

theorem Witness.ofBlocks?_agree {R : String → Prop} {table table' : NameMap (NameMap UseSite)}
    (h : SameOn R table table') {labels : List String} (hl : ∀ m ∈ labels, R m) (ref : String) :
    ofBlocks? table' labels ref = ofBlocks? table labels ref := by
  induction labels with
  | nil => rfl
  | cons m labels ih =>
    obtain ⟨hm, hl⟩ := List.forall_mem_cons.mp hl
    rw [ofBlocks?, ofBlocks?, List.findSome?_cons, List.findSome?_cons, h.getD hm]
    cases (table.getD m ∅)[ref]? with
    | some site => rfl
    | none => exact ih hl

/-- The next uses that are met where control comes are the same without unreachable blocks. -/
theorem Witness.table_pruned (hf : f.Fits types signatures) (hlive : SameOn f.Reachable live live')
    {table table' : NameMap (NameMap UseSite)} {n n' : Nat} (h : table? f refs live n = some table)
    (h' : table? f.pruned refs live' n' = some table') : SameOn f.Reachable table table' := by
  refine settled_pruned hf (fun t t' ht b hreach hsuccessors => ?_) h h'
  have hsame : ofBlock? f.pruned t' b = ofBlock? f t b := by
    funext ref
    rw [ofBlock?, ofBlock?, ofBlocks?_agree ht hsuccessors]
    rfl
  rw [entry, entry, hlive.getD hreach, hsame]

end Tables

namespace Regions
variable {f : Function} {types : TypeTable} {signatures : Registry Signature} {r r' : Regions}

section Computed
variable (hf : f.Fits types signatures) (hr : r.Computed f types) (hr' : r'.Computed f.pruned types)
include hf hr hr'

omit hf in
theorem refs_pruned : r'.refs = r.refs := Except.ok.inj (hr'.refs.symm.trans hr.refs)

theorem liveIn_pruned : SameOn f.Reachable r.liveIn r'.liveIn := by
  have hlive' := hr'.liveIn
  rw [refs_pruned hr hr'] at hlive'
  exact Liveness.liveIn_pruned hf hr.liveIn hlive'

theorem witnessIn_pruned : SameOn f.Reachable r.witnessIn r'.witnessIn := by
  obtain ⟨n, hn⟩ := hr.witnessIn
  obtain ⟨n', hn'⟩ := hr'.witnessIn
  rw [refs_pruned hr hr'] at hn'
  exact Witness.table_pruned hf (liveIn_pruned hf hr hr') hn hn'

theorem isLiveAfter_pruned {l : String} (hl : f.Reachable l) (ref : String) (n : Int) :
    r'.isLiveAfter ref l n = r.isLiveAfter ref l n := by
  obtain ⟨b, hb⟩ := hf.reachable hl
  have hlabel : b.label = l := Registry.name_of_get?_eq_some hb
  have hafter := hr.getElem?_liveAfter (Registry.mem_of_get?_eq_some hb)
  have hafter' :=
    hr'.getElem?_liveAfter (Registry.mem_of_get?_eq_some ((Function.get?_pruned hf hl).trans hb))
  have hout : Liveness.out r'.liveIn b = Liveness.out r.liveIn b :=
    Liveness.out_agree (liveIn_pruned hf hr hr') fun m hm => hl.step ⟨b, hb, hm⟩
  rw [refs_pruned hr hr', hout, ← hafter, hlabel] at hafter'
  rw [isLiveAfter, isLiveAfter, ExtTreeMap.getD_eq_getD_getElem?,
    ExtTreeMap.getD_eq_getD_getElem?, hafter']

/-- A reference that may hold loans is used in what is left if it is used in the whole. -/
theorem contains_useSites_pruned (huse : f.UsedWhereReached types) {ref : String}
    (hdef : f.DefinedWhereReached ref) : r'.useSites.contains ref = r.useSites.contains ref := by
  rw [hr.useSites, hr'.useSites, refs_pruned hr hr', Bool.eq_iff_iff, contains_sitesOf,
    contains_sitesOf]
  refine and_congr_right fun href => ⟨fun hsome hnone => hsome ?_, fun hsome hnone => ?_⟩
  · refine List.eq_nil_iff_forall_not_mem.mpr fun site hsite => ?_
    have hwhole := ((Function.mem_useSites_pruned hf).mp hsite).1
    rw [hnone] at hwhole
    cases hwhole
  · obtain ⟨site, hsite, hreach⟩ := huse ref (hr.mem_refs.mp href) hdef hsome
    have hleft := (Function.mem_useSites_pruned hf).mpr ⟨hsite, hreach⟩
    rw [hnone] at hleft
    cases hleft

theorem nextUse_pruned {l : String} (hl : f.Reachable l) (ref : String) (n : Int) :
    r'.nextUse ref l n = r.nextUse ref l n := by
  obtain ⟨b, hb⟩ := hf.reachable hl
  have hsuccessors : r'.successors l = b.successors := by
    rw [successors, hr'.function, Function.get?_pruned hf hl, hb]
  have hsuccessors' : r.successors l = b.successors := by rw [successors, hr.function, hb]
  have hfind : (r'.useSites.getD ref []).find?
      (fun s => s.location.block == l && n < s.location.index) =
      (r.useSites.getD ref []).find? fun s => s.location.block == l && n < s.location.index := by
    rw [hr.useSites, hr'.useSites, getD_sitesOf, getD_sitesOf, refs_pruned hr hr']
    split
    · exact Function.find?_useSites_pruned hf hl n
    · rfl
  have hmet : Witness.ofBlocks? r'.witnessIn b.successors ref =
      Witness.ofBlocks? r.witnessIn b.successors ref :=
    Witness.ofBlocks?_agree (witnessIn_pruned hf hr hr') (fun m hm => hl.step ⟨b, hb, hm⟩) ref
  rw [nextUse, nextUse, isLiveAfter_pruned hf hr hr' hl, hfind, hsuccessors, hsuccessors', hmet]

/-- The references of what is left of a function are alike where control comes, if loans stay to the
end of their scopes or every reference that is used is used there. -/
theorem agreeOn_pruned (hpolicy : r'.policy = r.policy)
    (huse : r.policy = .lexical ∨ f.UsedWhereReached types) :
    r.AgreeOn f.Reachable f.DefinedWhereReached r' where
  isHeldFast ref hdef := by
    rcases huse with hlexical | huse
    · simp only [isHeldFast, hpolicy, hlexical, BEq.rfl, Bool.true_or]
    · simp only [isHeldFast, isUnused, hpolicy, refs_pruned hr hr',
        contains_useSites_pruned hf hr hr' huse hdef]
  isLiveIn ref l hl := by rw [isLiveIn, isLiveIn, (liveIn_pruned hf hr hr').getD hl]
  isLiveAfter ref l n hl := isLiveAfter_pruned hf hr hr' hl ref n
  explain loan span l n hl := by simp only [nextUse_pruned hf hr hr' hl]

end Computed

end Regions

end Ownership

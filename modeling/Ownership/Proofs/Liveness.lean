import Ownership.Proofs.LoanSource
import Ownership.Proofs.Settle

/-! # Live references at the points of a block

The rounds that collect the live sets of a function come to rest. What a round takes from the
summary of a block is what going back over its operations gives. A reference is then live before an
operation exactly if the operation uses it, or if it is live behind the operation and not defined by
it, and what a successor finds live on entry is live behind the terminator. The sets do not depend
on the region policy.
-/
namespace Ownership
open Std

/-- The references of a function are the bindings of a reference type. -/
theorem Function.mem_refs {f : Function} {types : TypeTable} {refs : Names}
    (h : f.refs types = .ok refs) {x : String} : x ∈ refs ↔ f.IsRef types x := by
  have hmem : x ∈ refs ↔ x ∈ (∅ : Names) ∨
      ∃ b ∈ f.bindings.entries, b.name = x ∧ ∃ d, types.fetch b.type = .ok d ∧ d.isRef = true := by
    refine Except.foldlM_collects (P := fun acc : Names => x ∈ acc) (fun b u v hv => ?_) h
    obtain ⟨d, hd, hv⟩ := Except.bind_inv hv
    cases href : d.isRef <;> rw [href] at hv <;> cases hv
    · simp [hd, href]
    · simp [hd, href, or_comm]
  rw [hmem]
  constructor
  · rintro (hx | ⟨b, hb, rfl, d, hd, href⟩)
    · exact absurd hx ExtTreeSet.not_mem_empty
    · exact ⟨b, d, Registry.get?_eq_some_of_mem hb, hd, href⟩
  · rintro ⟨b, d, hb, hd, href⟩
    exact Or.inr ⟨b, Registry.mem_of_get?_eq_some hb, Registry.name_of_get?_eq_some hb, d, hd, href⟩

namespace Liveness

/-- The references live on entry to a block, from those live after it, found by going back over its
operations. -/
def onEntry (refs : Names) (b : Block) (out : Names) : Names :=
  b.body.foldr (before refs) (beforeEnding refs b out)

def out (liveIn : NameMap Names) (b : Block) : Names :=
  b.successors.foldl (fun live l => live.union (liveIn.getD l ∅)) ∅

variable {refs after out : Names} {i : Instruction} {b : Block} {x : String}

theorem mem_only {names : List String} : x ∈ only refs names ↔ x ∈ names ∧ x ∈ refs := by
  simp [only]

theorem mem_foldl_insert {names : List String} {s : Names} :
    x ∈ names.foldl .insert s ↔ x ∈ names ∨ x ∈ s := by
  induction names generalizing s with
  | nil => simp
  | cons y names ih =>
    rw [List.foldl_cons, ih, List.mem_cons, ExtTreeSet.mem_insert, Std.compare_eq_iff_eq, eq_comm,
      or_left_comm, or_assoc]

theorem mem_foldl_erase {names : List String} {s : Names} :
    x ∈ names.foldl .erase s ↔ x ∈ s ∧ x ∉ names := by
  induction names generalizing s with
  | nil => simp
  | cons y names ih =>
    rw [List.foldl_cons, ih, List.mem_cons, ExtTreeSet.mem_erase, not_or]
    simp [and_assoc, and_left_comm, eq_comm (a := x)]

theorem mem_before : x ∈ before refs i after ↔
    (x ∈ i.op.uses ∧ x ∈ refs) ∨ (x ∈ after ∧ ¬(x ∈ i.op.defs ∧ x ∈ refs)) := by
  rw [before, mem_foldl_insert, mem_foldl_erase, mem_only, mem_only]

theorem mem_beforeEnding :
    x ∈ beforeEnding refs b out ↔ (x ∈ b.endingUses ∧ x ∈ refs) ∨ x ∈ out := by
  rw [beforeEnding, mem_foldl_insert, mem_only]

/-- The summary of a block agrees with going back over its operations. -/
theorem summary_replay (refs : Names) (b : Block) (out : Names) :
    (summary refs b).exposed.union (out.diff (summary refs b).defined) = onEntry refs b out := by
  refine ExtTreeSet.ext_mem fun {x} => ?_
  refine (ExtTreeSet.mem_union_iff.trans (or_congr_right ExtTreeSet.mem_diff_iff)).trans ?_
  simp only [summary, onEntry]
  -- An operation that defines the reference hides what is live behind it in both.
  induction b.body with
  | nil => simp [mem_beforeEnding]
  | cons i body ih =>
    simp only [List.foldr_cons, mem_before, ← ih, mem_foldl_insert, mem_only]
    tauto

theorem mem_out {liveIn : NameMap Names} :
    x ∈ Liveness.out liveIn b ↔ ∃ m ∈ b.successors, x ∈ liveIn.getD m ∅ := by
  have hfold : ∀ (labels : List String) (acc : Names),
      x ∈ labels.foldl (fun live l => live.union (liveIn.getD l ∅)) acc ↔ x ∈ acc ∨
        ∃ m ∈ labels, x ∈ liveIn.getD m ∅ := by
    intro labels
    induction labels with
    | nil => simp
    | cons m labels ih =>
      intro acc
      rw [List.foldl_cons, ih, List.exists_mem_cons_iff, ← or_assoc]
      exact or_congr_left ExtTreeSet.mem_union_iff
  rw [Liveness.out, hfold]
  simp

def onEntries (live : NameMap LiveSets) : NameMap Names := live.map fun _ sets => sets.onEntry

def liveIn? (f : Function) (refs : Names) : Option (NameMap Names) := (live? f refs).map onEntries

theorem liveIn?_of_live {f : Function} {live : NameMap LiveSets} (h : live? f refs = some live) :
    liveIn? f refs = some (onEntries live) := by
  rw [liveIn?, h, Option.map_some]

theorem getD_onEntries (live : NameMap LiveSets) (l : String) :
    (onEntries live).getD l ∅ = (live.getD l ∅).onEntry := by
  rw [ExtTreeMap.getD_eq_getD_getElem?, ExtTreeMap.getD_eq_getD_getElem?, onEntries,
    ExtTreeMap.getElem?_map]
  cases live[l]? <;> rfl

theorem onEntries_insert (live : NameMap LiveSets) (l : String) (sets : LiveSets) :
    onEntries (live.insert l sets) = (onEntries live).insert l sets.onEntry := by
  refine ExtTreeMap.ext_getElem? fun {x} => ?_
  rw [onEntries, ExtTreeMap.getElem?_map, ExtTreeMap.getElem?_insert,
    ExtTreeMap.getElem?_insert, onEntries, ExtTreeMap.getElem?_map]
  split <;> rfl

theorem ofBlock_eq (refs : Names) (live : NameMap LiveSets) (b : Block) :
    ofBlock refs live b =
      ⟨onEntry refs b (Liveness.out (onEntries live) b), Liveness.out (onEntries live) b⟩ := by
  have hout : b.successors.foldl (fun (out : Names) l => out.union (live.getD l ∅).onEntry) ∅ =
      Liveness.out (onEntries live) b := by
    simp only [Liveness.out, getD_onEntries]
  rw [ofBlock, hout, summary_replay]

section Rest
variable {f : Function} {t t' : NameMap Names} {live : NameMap LiveSets}

def round (f : Function) (refs : Names) : NameMap Names → NameMap Names :=
  sweep f.blocks.entries.reverse fun live b => onEntry refs b (Liveness.out live b)

theorem onEntries_sweep (blocks : List Block) (live : NameMap LiveSets) :
    onEntries (sweep blocks (ofBlock refs) live) =
      sweep blocks (fun live b => onEntry refs b (Liveness.out live b)) (onEntries live) := by
  induction blocks generalizing live with
  | nil => rfl
  | cons b blocks ih =>
    refine (ih _).trans ?_
    rw [onEntries_insert, ofBlock_eq]
    rfl

theorem onEntry_induction {P : Names → Prop}
    (hbefore : ∀ i after, P after → P (before refs i after)) (hout : P (beforeEnding refs b out)) :
    P (onEntry refs b out) := by
  unfold onEntry
  induction b.body with
  | nil => exact hout
  | cons i body ih => exact hbefore i _ ih

theorem mem_refs_of_before (hafter : ∀ x ∈ after, x ∈ refs) :
    ∀ x ∈ before refs i after, x ∈ refs := by
  intro x hx
  rcases mem_before.mp hx with ⟨-, hx⟩ | ⟨hx, -⟩
  · exact hx
  · exact hafter x hx

theorem mem_refs_of_beforeEnding (hout : ∀ x ∈ out, x ∈ refs) :
    ∀ x ∈ beforeEnding refs b out, x ∈ refs := by
  intro x hx
  rcases mem_beforeEnding.mp hx with ⟨-, hx⟩ | hx
  · exact hx
  · exact hout x hx

theorem mem_refs_of_onEntry (hout : ∀ x ∈ out, x ∈ refs) : ∀ x ∈ onEntry refs b out, x ∈ refs :=
  onEntry_induction (P := fun live => ∀ x ∈ live, x ∈ refs) (fun _ _ => mem_refs_of_before)
    (mem_refs_of_beforeEnding hout)

theorem onEntry_mono {out' : Names} (h : ∀ x ∈ out, x ∈ out') :
    ∀ x ∈ onEntry refs b out, x ∈ onEntry refs b out' := by
  unfold onEntry
  induction b.body with
  | nil =>
    intro x hx
    rw [List.foldr_nil, mem_beforeEnding] at hx ⊢
    exact hx.imp_right (h x)
  | cons i body ih =>
    intro x hx
    rw [List.foldr_cons, mem_before] at hx ⊢
    exact hx.imp_right (And.imp_left (ih x))

theorem out_mono (h : Included t t') : ∀ x ∈ Liveness.out t b, x ∈ Liveness.out t' b := by
  intro x hx
  obtain ⟨m, hm, hx⟩ := mem_out.mp hx
  exact mem_out.mpr ⟨m, hm, h.mem_getD hx⟩

theorem round_mono (h : Included t t') : Included (round f refs t) (round f refs t') :=
  .sweep (fun _ _ _ h => onEntry_mono (out_mono h)) h

structure Collected (f : Function) (refs : Names) (t : NameMap Names) : Prop where
  keys : ∀ l, l ∈ t ↔ l ∈ f.blocks.names
  members : ∀ l, ∀ x ∈ t.getD l ∅, x ∈ refs
  grows : Included t (round f refs t)

theorem Collected.round (h : Collected f refs t) : Collected f refs (round f refs t) where
  keys l := by
    rw [Liveness.round, mem_sweep, h.keys, List.map_reverse, List.mem_reverse]
    exact or_self_iff
  members := by
    refine sweep_induction (P := fun t => ∀ l, ∀ x ∈ t.getD l ∅, x ∈ refs)
      (fun t b _ ht l x hx => ?_) h.members
    rw [ExtTreeMap.getD_insert] at hx
    split at hx
    · refine mem_refs_of_onEntry (fun y hy => ?_) x hx
      obtain ⟨m, -, hy⟩ := mem_out.mp hy
      exact ht m y hy
    · exact ht l x hx
  grows := round_mono h.grows

theorem getElem?_start {α : Type} {e : α} {l : String} (hl : l ∈ f.blocks.names) :
    (ExtTreeMap.ofList (f.blocks.names.map fun l => (l, e)) : NameMap α)[l]? = some e := by
  have hdistinct : (f.blocks.names.map fun l => l).Nodup := by
    rw [List.map_id']
    exact f.blocks.distinct
  exact getElem?_ofList_map hdistinct hl

theorem collected_start : Collected f refs (.ofList (f.blocks.names.map fun l => (l, ∅))) := by
  have hkeys : ∀ l, l ∈ (ExtTreeMap.ofList (f.blocks.names.map fun l => (l, (∅ : Names)))) ↔
      l ∈ f.blocks.names := by
    simp
  have hnone :
      ∀ l x, x ∉ (ExtTreeMap.ofList (f.blocks.names.map fun l => (l, (∅ : Names)))).getD l ∅ := by
    intro l x hx
    obtain ⟨u, hu, hx⟩ := mem_getD_iff.mp hx
    have hl : l ∈ f.blocks.names :=
      (hkeys l).mp (ExtTreeMap.mem_iff_isSome_getElem?.mpr (by rw [hu]; rfl))
    cases hu.symm.trans (getElem?_start hl)
    exact ExtTreeSet.not_mem_empty hx
  refine ⟨hkeys, fun l x hx => absurd hx (hnone l x),
    included_of_mem (fun l hl => ?_) fun l x hx => absurd hx (hnone l x)⟩
  exact mem_sweep.mpr (Or.inr hl)

/-- The rounds over the sets on entry come to rest. -/
theorem round_settle (f : Function) (refs : Names) {n : Nat} (hn : f.blocks.size * refs.size ≤ n) :
    Liveness.round f refs (settle (Liveness.round f refs) n
      (.ofList (f.blocks.names.map fun l => (l, ∅)))) =
      settle (Liveness.round f refs) n (.ofList (f.blocks.names.map fun l => (l, ∅))) := by
  have hgrow : ∀ t, Collected f refs t → Liveness.round f refs t ≠ t →
      marks f.blocks.names refs.toList t <
      marks f.blocks.names refs.toList (Liveness.round f refs t) := by
    intro t ht hne
    refine marks_lt (fun x hx => ?_) (fun x hx => ?_) (fun x y hy => ?_) ht.grows hne
    · exact (ht.keys x).mpr ((ht.round.keys x).mp hx)
    · exact (ht.round.keys x).mp hx
    · exact ExtTreeSet.mem_toList.mpr (ht.round.members x y hy)
  have hle : ∀ t, Collected f refs t →
      marks f.blocks.names refs.toList t ≤ f.blocks.size * refs.size := by
    intro t _
    have h := marks_le f.blocks.names refs.toList t
    rwa [ExtTreeSet.length_toList, Registry.names, List.length_map] at h
  exact step_settle (fun _ ht => ht.round) hgrow hle collected_start (by omega)

/-- Where the sets on entry are at rest, a round finds for each block the sets that are computed
from them. -/
theorem getElem?_sweep_of_rest (hrest : Liveness.round f refs (onEntries live) = onEntries live)
    (hb : b ∈ f.blocks.entries) :
    (sweep f.blocks.entries.reverse (ofBlock refs) live)[b.label]? =
      some (ofBlock refs live b) := by
  have hdistinct := f.blocks.distinct_reverse
  obtain ⟨pre, post, hsplit⟩ := List.append_of_mem (List.mem_reverse.mpr hb)
  rw [Liveness.round, hsplit] at hrest
  rw [hsplit] at hdistinct ⊢
  rw [show b.label = Named.name b from rfl, (getElem?_sweep _ live hdistinct).1, ofBlock_eq,
    ofBlock_eq, onEntries_sweep, sweep_eq_of_append hdistinct hrest]

/-- The sets behind the terminators are at rest one round after those on entry. -/
theorem sweep_sweep_of_rest (hrest : Liveness.round f refs (onEntries live) = onEntries live) :
    sweep f.blocks.entries.reverse (ofBlock refs)
      (sweep f.blocks.entries.reverse (ofBlock refs) live) =
      sweep f.blocks.entries.reverse (ofBlock refs) live := by
  have hsame : onEntries (sweep f.blocks.entries.reverse (ofBlock refs) live) = onEntries live :=
    (onEntries_sweep _ live).trans hrest
  refine ExtTreeMap.ext_getElem? fun {x} => ?_
  by_cases hx : x ∈ f.blocks.entries.reverse.map Named.name
  · obtain ⟨b, hb, rfl⟩ := List.mem_map.mp hx
    have hb := List.mem_reverse.mp hb
    refine (getElem?_sweep_of_rest (by rw [hsame, hrest]) hb).trans ?_
    rw [ofBlock_eq, hsame, ← ofBlock_eq]
    exact (getElem?_sweep_of_rest hrest hb).symm
  · exact getElem?_sweep_of_not_mem hx

theorem onEntries_start (f : Function) : onEntries (.ofList (f.blocks.names.map fun l => (l, ∅))) =
    .ofList (f.blocks.names.map fun l => (l, ∅)) := by
  refine ExtTreeMap.ext_getElem? fun {x} => ?_
  rw [onEntries, ExtTreeMap.getElem?_map]
  by_cases hx : x ∈ f.blocks.names
  · rw [getElem?_start hx, getElem?_start hx]
    rfl
  · rw [ExtTreeMap.getElem?_ofList_of_contains_eq_false (by simpa using hx),
      ExtTreeMap.getElem?_ofList_of_contains_eq_false (by simpa using hx)]
    rfl

theorem onEntries_settle (f : Function) (refs : Names) (n : Nat) :
    onEntries (settle (sweep f.blocks.entries.reverse (ofBlock refs)) n
      (.ofList (f.blocks.names.map fun l => (l, ∅)))) =
      settle (Liveness.round f refs) n (.ofList (f.blocks.names.map fun l => (l, ∅))) := by
  have hsemiconj : Function.Semiconj onEntries (sweep f.blocks.entries.reverse (ofBlock refs))
      (Liveness.round f refs) :=
    onEntries_sweep _
  rw [settle_eq_iterate, settle_eq_iterate, ← onEntries_start]
  exact hsemiconj.iterate_right n _

/-- The rounds that collect the live sets come to rest. -/
theorem exists_live (f : Function) (refs : Names) : ∃ live, live? f refs = some live := by
  refine ⟨_, settled?_of_step ?_⟩
  rw [settle_eq_iterate, Function.iterate_succ_apply']
  refine sweep_sweep_of_rest ?_
  rw [← settle_eq_iterate, onEntries_settle]
  exact round_settle f refs le_rfl

/-- The sets on entry are those that rounds over them alone come to. -/
theorem liveIn?_eq (f : Function) (refs : Names) : liveIn? f refs = settled? (Liveness.round f refs)
    (f.blocks.size * refs.size + 1) (.ofList (f.blocks.names.map fun l => (l, ∅))) := by
  obtain ⟨live, hlive⟩ := exists_live f refs
  obtain ⟨-, rfl⟩ := settled?_eq_some.mp hlive
  rw [liveIn?_of_live hlive, ← settle_eq_iterate, onEntries_settle,
    settled?_of_step (round_settle f refs (Nat.le_succ _))]

theorem exists_liveIn (f : Function) (refs : Names) : ∃ liveIn, liveIn? f refs = some liveIn := by
  obtain ⟨live, hlive⟩ := exists_live f refs
  exact ⟨_, liveIn?_of_live hlive⟩

/-- The rounds end at a table that has for each block the sets that are computed from it. -/
theorem getElem?_live (h : live? f refs = some live) (hb : b ∈ f.blocks.entries) :
    live[b.label]? = some ⟨onEntry refs b (Liveness.out (onEntries live) b),
      Liveness.out (onEntries live) b⟩ := by
  rw [← ofBlock_eq]
  exact getElem?_of_sweep_eq f.blocks.distinct_reverse (step_of_settled? h)
    (List.mem_reverse.mpr hb)

theorem getElem?_liveIn (h : liveIn? f refs = some t) (hb : b ∈ f.blocks.entries) :
    t[b.label]? = some (onEntry refs b (Liveness.out t b)) := by
  obtain ⟨live, hlive, rfl⟩ := Option.map_eq_some_iff.mp h
  rw [onEntries, ExtTreeMap.getElem?_map, getElem?_live hlive hb]
  rfl

/-- What is live on entry to a block is a reference. -/
theorem mem_refs_of_mem_liveIn {l : String} (h : liveIn? f refs = some t) (hx : x ∈ t.getD l ∅) :
    x ∈ refs := by
  rw [liveIn?_eq] at h
  exact (settled?_induction (fun _ ht => ht.round) collected_start h).members l x hx

end Rest

def points (refs : Names) (b : Block) (out : Names) : List Names :=
  trail refs (beforeEnding refs b out) b.body ++ [out]

theorem trail_head (refs after : Names) (body : List Instruction) :
    (trail refs after body)[0]? = some (body.foldr (before refs) after) := by
  induction body with
  | nil => rfl
  | cons i body ih =>
    rw [trail]
    cases htrail : trail refs after body with
    | nil => simp [htrail] at ih
    | cons live later =>
      rw [htrail] at ih
      rw [List.foldr_cons, ← Option.some.inj ih]
      rfl

theorem trail_cons (body : List Instruction) :
    trail refs after (i :: body) =
      before refs i (body.foldr (before refs) after) :: trail refs after body := by
  have hhead := trail_head refs after body
  rw [trail]
  cases htrail : trail refs after body with
  | nil => simp [htrail] at hhead
  | cons live later =>
    rw [htrail] at hhead
    rw [← Option.some.inj hhead]

theorem length_trail (refs after : Names) (body : List Instruction) :
    (trail refs after body).length = body.length + 1 := by
  induction body with
  | nil => rfl
  | cons i body ih => rw [trail_cons, List.length_cons, ih, List.length_cons]

/-- At each operation the live set before it comes from the one behind it. -/
theorem trail_step (refs after : Names) {body : List Instruction} {n : Nat}
    (hi : body[n]? = some i) :
    ∃ live, (trail refs after body)[n + 1]? = some live ∧
      (trail refs after body)[n]? = some (before refs i live) := by
  induction body generalizing n with
  | nil => cases hi
  | cons j body ih =>
    rw [trail_cons]
    cases n with
    | zero =>
      cases hi
      exact ⟨_, trail_head refs after body, rfl⟩
    | succ n => exact ih hi

theorem trail_last (body : List Instruction) :
    (trail refs after body)[body.length]? = some after := by
  induction body with
  | nil => rfl
  | cons i body ih =>
    rw [trail_cons]
    exact ih

theorem points_head : (points refs b out)[0]? = some (onEntry refs b out) := by
  rw [points, List.getElem?_append_left (by rw [length_trail]; omega), trail_head, onEntry]

theorem points_tail (n : Nat) : (points refs b out)[n + 1]? = (afterEach refs b out)[n]? := by
  rw [points, afterEach]
  cases htrail : trail refs (beforeEnding refs b out) b.body with
  | nil =>
    have hlength := length_trail refs (beforeEnding refs b out) b.body
    simp [htrail] at hlength
  | cons live later => rfl

theorem points_step (refs out : Names) {n : Nat} (hi : b.body[n]? = some i) :
    ∃ live, (points refs b out)[n + 1]? = some live ∧
      (points refs b out)[n]? = some (before refs i live) := by
  obtain ⟨live, hnext, hthis⟩ := trail_step refs (beforeEnding refs b out) hi
  refine ⟨live, ?_, ?_⟩
  · rw [points, List.getElem?_append_left (List.getElem?_eq_some_iff.mp hnext).1, hnext]
  · rw [points, List.getElem?_append_left (List.getElem?_eq_some_iff.mp hthis).1, hthis]

theorem points_ending (refs : Names) (b : Block) (out : Names) :
    (points refs b out)[b.body.length]? = some (beforeEnding refs b out) ∧
    (points refs b out)[b.body.length + 1]? = some out := by
  constructor
  · rw [points, List.getElem?_append_left (by rw [length_trail]; omega), trail_last]
  · rw [points, List.getElem?_append_right (by rw [length_trail]), length_trail, Nat.sub_self]
    rfl

end Liveness

namespace Regions
variable {f : Function} {types : TypeTable} {policy : RegionPolicy} {r : Regions} {l x : String}
    {b : Block} {n : Nat}

/-- Whether a reference is live at a point of a block, counted by the operations, and last the
terminator, that stand before it. -/
def isLiveAt (r : Regions) (ref label : String) : Nat → Bool
  | 0 => r.isLiveIn ref label
  | n + 1 => r.isLiveAfter ref label n

structure Computed (f : Function) (types : TypeTable) (r : Regions) : Prop where
  function : r.function = f
  refs : f.refs types = .ok r.refs
  live : ∃ live, Liveness.live? f r.refs = some live ∧ r.liveIn = Liveness.onEntries live ∧
    r.liveOut = live.map fun _ sets => sets.onExit
  liveAfter : r.liveAfter = .ofList (f.blocks.entries.map fun b =>
    (b.label, Liveness.afterEach r.refs b (r.liveOut.getD b.label ∅)))
  useSites : r.useSites = sitesOf f r.refs
  witnessIn : ∃ sites, Witness.table? f r.refs r.liveIn sites = some r.witnessIn

theorem compute_inv (h : compute f types policy = .ok r) : Computed f types r ∧ r.policy = policy ∧
    ∀ policy', compute f types policy' = .ok { r with policy := policy' } := by
  rw [compute] at h
  obtain ⟨refs, hrefs, h⟩ := Except.bind_inv h
  obtain ⟨u, htargets, h⟩ := Except.bind_inv h
  cases hlive : Liveness.live? f refs with
  | none =>
    simp only [hlive] at h
    cases h
  | some live =>
    simp only [hlive] at h
    split at h
    · cases h
    · rename_i witnessIn hwitness
      cases h
      refine ⟨⟨rfl, hrefs, ⟨live, hlive, rfl, rfl⟩, rfl, rfl, _, hwitness⟩, rfl, fun policy' => ?_⟩
      rw [compute, Except.bind_of_ok hrefs, Except.bind_of_ok htargets]
      simp only [hlive, hwitness]
      rfl

namespace Computed
variable (h : Computed f types r)
include h

theorem mem_refs : x ∈ r.refs ↔ f.IsRef types x := Function.mem_refs h.refs

theorem liveIn : Liveness.liveIn? f r.refs = some r.liveIn := by
  obtain ⟨live, hlive, hin, -⟩ := h.live
  rw [hin, Liveness.liveIn?_of_live hlive]

theorem getElem?_liveIn (hb : b ∈ f.blocks.entries) :
    r.liveIn[b.label]? = some (Liveness.onEntry r.refs b (Liveness.out r.liveIn b)) :=
  Liveness.getElem?_liveIn h.liveIn hb

theorem getElem?_liveOut (hb : b ∈ f.blocks.entries) :
    r.liveOut[b.label]? = some (Liveness.out r.liveIn b) := by
  obtain ⟨live, hlive, hin, hout⟩ := h.live
  rw [hin, hout, ExtTreeMap.getElem?_map, Liveness.getElem?_live hlive hb]
  rfl

theorem getElem?_liveAfter (hb : b ∈ f.blocks.entries) :
    r.liveAfter[b.label]? = some (Liveness.afterEach r.refs b (Liveness.out r.liveIn b)) := by
  rw [h.liveAfter]
  refine (getElem?_ofList_map f.blocks.distinct hb).trans ?_
  rw [ExtTreeMap.getD_eq_getD_getElem?, h.getElem?_liveOut hb, Option.getD_some]

theorem isLiveAt_iff (hb : f.blocks.get? l = some b) : r.isLiveAt x l n = true ↔
    ∃ live, (Liveness.points r.refs b (Liveness.out r.liveIn b))[n]? = some live ∧ x ∈ live := by
  have hmem := Registry.mem_of_get?_eq_some hb
  have hlabel : b.label = l := Registry.name_of_get?_eq_some hb
  cases n with
  | zero =>
    rw [isLiveAt, isLiveIn, ← hlabel, ExtTreeMap.getD_eq_getD_getElem?, h.getElem?_liveIn hmem,
      Liveness.points_head]
    simp
  | succ n =>
    rw [isLiveAt, isLiveAfter, ← hlabel, ExtTreeMap.getD_eq_getD_getElem?,
      h.getElem?_liveAfter hmem,
      Liveness.points_tail, at?, if_pos (Int.natCast_nonneg n), Option.getD_some, Int.toNat_natCast]
    cases (Liveness.afterEach r.refs b (Liveness.out r.liveIn b))[n]? <;> simp

/-- A reference is live before an operation if the operation uses it, or does not define it and it
is live behind the operation. -/
theorem isLiveAt_op (hb : f.blocks.get? l = some b) {i : Instruction} (hi : b.body[n]? = some i) :
    r.isLiveAt x l n = true ↔ (x ∈ i.op.uses ∧ f.IsRef types x) ∨
      (r.isLiveAt x l (n + 1) = true ∧ ¬(x ∈ i.op.defs ∧ f.IsRef types x)) := by
  obtain ⟨live, hnext, hthis⟩ := Liveness.points_step r.refs (Liveness.out r.liveIn b) hi
  rw [h.isLiveAt_iff hb, h.isLiveAt_iff hb, hnext, hthis, ← h.mem_refs]
  simp [Liveness.mem_before]

/-- What is live behind a terminator is live before it. -/
theorem isLiveAt_ending (hb : f.blocks.get? l = some b)
    (hx : r.isLiveAt x l (b.body.length + 1) = true) : r.isLiveAt x l b.body.length = true := by
  obtain ⟨hbefore, hbehind⟩ := Liveness.points_ending r.refs b (Liveness.out r.liveIn b)
  rw [h.isLiveAt_iff hb, hbehind] at hx
  obtain ⟨live, hlive, hx⟩ := hx
  cases hlive
  exact (h.isLiveAt_iff hb).mpr ⟨_, hbefore, Liveness.mem_beforeEnding.mpr (Or.inr hx)⟩

/-- What a successor finds live on entry is live behind the terminator. -/
theorem isLiveAt_successor (hb : f.blocks.get? l = some b) {m : String} (hm : m ∈ b.successors)
    (hx : r.isLiveAt x m 0 = true) : r.isLiveAt x l (b.body.length + 1) = true := by
  rw [h.isLiveAt_iff hb, (Liveness.points_ending ..).2]
  refine ⟨_, rfl, Liveness.mem_out.mpr ⟨m, hm, ?_⟩⟩
  simpa [isLiveAt, isLiveIn] using hx

end Computed

section Sites
variable {refs : Names}

theorem getElem?_sitesOf (x : String) :
    (sitesOf f refs)[x]? = if x ∈ refs ∧ f.useSites x ≠ [] then some (f.useSites x) else none := by
  have hsites : sitesOf f refs = .ofList (refs.toList.filterMap fun y =>
      (if f.useSites y ≠ [] then some (f.useSites y) else none).map fun sites => (y, sites)) := by
    unfold sitesOf
    congr 2
    funext y
    cases f.useSites y <;> rfl
  rw [hsites, getElem?_ofList_filterMap, ite_and]

theorem getD_sitesOf (x : String) :
    (sitesOf f refs).getD x [] = if x ∈ refs then f.useSites x else [] := by
  rw [ExtTreeMap.getD_eq_getD_getElem?, getElem?_sitesOf]
  by_cases hx : x ∈ refs
  · by_cases hnil : f.useSites x = []
    · rw [if_neg fun h => h.2 hnil, if_pos hx, hnil]
      rfl
    · rw [if_pos ⟨hx, hnil⟩, if_pos hx]
      rfl
  · rw [if_neg fun h => hx h.1, if_neg hx]
    rfl

theorem contains_sitesOf {x : String} :
    (sitesOf f refs).contains x = true ↔ x ∈ refs ∧ f.useSites x ≠ [] := by
  rw [ExtTreeMap.contains_iff_mem, ExtTreeMap.mem_iff_isSome_getElem?, getElem?_sitesOf]
  split
  · rename_i hx
    exact ⟨fun _ => hx, fun _ => rfl⟩
  · rename_i hx
    exact ⟨nofun, fun h => absurd h hx⟩

end Sites

end Regions

end Ownership

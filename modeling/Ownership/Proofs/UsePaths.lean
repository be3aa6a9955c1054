import Ownership.Proofs.Completion

/-! # Paths to a use

Control goes through a function from point to point. A reference is live at a point exactly if a
path leads from there to a use of it and crosses no definition of it before. The rounds that collect
the live sets mark nothing without such a path, and a table that a round leaves as it is has a mark
wherever there is one.
-/
namespace Ownership
open Std

/-- A point of a function: in a block, before an operation, before the terminator or behind it. It
is counted by what stands before it. -/
structure Point where
  block : String
  index : Nat

namespace Block

def reads (b : Block) (n : Nat) : List String :=
  ((b.body.map fun i => i.op.uses) ++ [b.endingUses]).getD n []

def defs (b : Block) (n : Nat) : List String := (b.body.map fun i => i.op.defs).getD n []

variable {b : Block} {n : Nat}

theorem reads_of_getElem? {i : Instruction} (h : b.body[n]? = some i) : b.reads n = i.op.uses := by
  have hlt := (List.getElem?_eq_some_iff.mp h).1
  rw [reads, List.getD_eq_getElem?_getD, List.getElem?_append_left (by simpa using hlt),
    List.getElem?_map, h]
  rfl

theorem defs_of_getElem? {i : Instruction} (h : b.body[n]? = some i) : b.defs n = i.op.defs := by
  rw [defs, List.getD_eq_getElem?_getD, List.getElem?_map, h]
  rfl

@[simp] theorem reads_length (b : Block) : b.reads b.body.length = b.endingUses := by
  rw [reads, List.getD_eq_getElem?_getD, List.getElem?_append_right (by simp)]
  simp

theorem reads_of_length_lt (h : b.body.length < n) : b.reads n = [] := by
  rw [reads, List.getD_eq_getElem?_getD, List.getElem?_eq_none (by simpa using Nat.succ_le_of_lt h)]
  rfl

theorem defs_of_length_le (h : b.body.length ≤ n) : b.defs n = [] := by
  rw [defs, List.getD_eq_getElem?_getD, List.getElem?_eq_none (by simpa using h)]
  rfl

theorem le_length_of_mem_reads {x : String} (h : x ∈ b.reads n) : n ≤ b.body.length := by
  refine Nat.le_of_not_lt fun hlt => ?_
  rw [reads_of_length_lt hlt] at h
  cases h

end Block

namespace Function
variable {f : Function} {x : String} {p q : Point}

/-- Control may go from the first point to the second, over one operation or terminator, or from a
block to a successor. -/
inductive Next (f : Function) : Point → Point → Prop
  | forward {l : String} {b : Block} {n : Nat} (hb : f.blocks.get? l = some b)
    (hn : n ≤ b.body.length) : f.Next ⟨l, n⟩ ⟨l, n + 1⟩
  | across {l m : String} {b : Block} (hb : f.blocks.get? l = some b) (hm : m ∈ b.successors) :
      f.Next ⟨l, b.body.length + 1⟩ ⟨m, 0⟩

def ReadsAt (f : Function) (x : String) (p : Point) : Prop :=
  ∃ b, f.blocks.get? p.block = some b ∧ x ∈ b.reads p.index

def DefinesAt (f : Function) (x : String) (p : Point) : Prop :=
  ∃ b, f.blocks.get? p.block = some b ∧ x ∈ b.defs p.index

/-- A path leads from the point to a use of the binding, and nothing on the way to it defines the
binding. -/
def UsedAhead (f : Function) (x : String) (p : Point) : Prop :=
  ∃ q, Relation.ReflTransGen (fun p p' => f.Next p p' ∧ ¬f.DefinesAt x p) p q ∧ f.ReadsAt x q

theorem ReadsAt.usedAhead (h : f.ReadsAt x p) : f.UsedAhead x p := ⟨p, .refl, h⟩

theorem UsedAhead.step (hnext : f.Next p q) (hdef : ¬f.DefinesAt x p) (h : f.UsedAhead x q) :
    f.UsedAhead x p := by
  obtain ⟨last, hpath, huse⟩ := h
  exact ⟨last, .head ⟨hnext, hdef⟩ hpath, huse⟩

theorem readsAt_iff {l : String} {b : Block} {n : Nat} (hb : f.blocks.get? l = some b) :
    f.ReadsAt x ⟨l, n⟩ ↔ x ∈ b.reads n := by
  simp [ReadsAt, hb]

theorem definesAt_iff {l : String} {b : Block} {n : Nat} (hb : f.blocks.get? l = some b) :
    f.DefinesAt x ⟨l, n⟩ ↔ x ∈ b.defs n := by
  simp [DefinesAt, hb]

/-- Nothing is defined behind a terminator. -/
theorem not_definesAt_behind {l : String} {b : Block} (hb : f.blocks.get? l = some b) :
    ¬f.DefinesAt x ⟨l, b.body.length + 1⟩ := by
  rw [definesAt_iff hb, Block.defs_of_length_le (by omega)]
  exact List.not_mem_nil

end Function

namespace Liveness
variable {f : Function} {refs : Names} {liveIn : NameMap Names} {x l : String} {b : Block} {n : Nat}

theorem length_points (refs : Names) (b : Block) (out : Names) :
    (points refs b out).length = b.body.length + 2 := by
  rw [points, List.length_append, length_trail, List.length_singleton]

/-- A reference is live at a point of a block if what stands behind the point reads it, or if it is
live at the next point and not defined in between. -/
theorem mem_points (hx : x ∈ refs) (out : Names) (hn : n ≤ b.body.length) : ∃ live next,
    (points refs b out)[n]? = some live ∧ (points refs b out)[n + 1]? = some next ∧
      (x ∈ live ↔ x ∈ b.reads n ∨ (x ∈ next ∧ x ∉ b.defs n)) := by
  rcases Nat.lt_or_eq_of_le hn with hlt | rfl
  · have hi : b.body[n]? = some b.body[n] := List.getElem?_eq_getElem hlt
    obtain ⟨next, hnext, hlive⟩ := points_step refs out hi
    refine ⟨_, next, hlive, hnext, ?_⟩
    rw [mem_before, Block.reads_of_getElem? hi, Block.defs_of_getElem? hi]
    simp [hx]
  · obtain ⟨hlive, hnext⟩ := points_ending refs b out
    refine ⟨_, out, hlive, hnext, ?_⟩
    rw [mem_beforeEnding, Block.reads_length, Block.defs_of_length_le (Nat.le_refl _)]
    simp [hx]

def Marks (f : Function) (refs : Names) (table : NameMap Names) (x : String) (p : Point) : Prop :=
  ∃ b live, f.blocks.get? p.block = some b ∧
    (points refs b (Liveness.out table b))[p.index]? = some live ∧ x ∈ live

theorem marks_iff (hx : x ∈ refs) (hb : f.blocks.get? l = some b) (hn : n ≤ b.body.length) :
    Marks f refs liveIn x ⟨l, n⟩ ↔ f.ReadsAt x ⟨l, n⟩ ∨
    (Marks f refs liveIn x ⟨l, n + 1⟩ ∧ ¬f.DefinesAt x ⟨l, n⟩) := by
  obtain ⟨live, next, hlive, hnext, hiff⟩ := mem_points (b := b) hx (Liveness.out liveIn b) hn
  simpa [Marks, hb, hlive, hnext, Function.readsAt_iff hb, Function.definesAt_iff hb] using hiff

theorem marks_behind (hb : f.blocks.get? l = some b) :
    Marks f refs liveIn x ⟨l, b.body.length + 1⟩ ↔ ∃ m ∈ b.successors, x ∈ liveIn.getD m ∅ := by
  simp [Marks, hb, (points_ending refs b (Liveness.out liveIn b)).2, mem_out]

theorem marks_entry (hb : f.blocks.get? l = some b) :
    Marks f refs liveIn x ⟨l, 0⟩ ↔ x ∈ onEntry refs b (Liveness.out liveIn b) := by
  simp [Marks, hb, points_head]

/-- What a table marks at a point has a use ahead, if this is so on entry to each block. -/
theorem usedAhead_of_marks (hx : x ∈ refs)
    (htable : ∀ l, x ∈ liveIn.getD l ∅ → f.UsedAhead x ⟨l, 0⟩) (hb : f.blocks.get? l = some b)
    (h : Marks f refs liveIn x ⟨l, n⟩) : f.UsedAhead x ⟨l, n⟩ := by
  have hlen : n ≤ b.body.length + 1 := by
    obtain ⟨b', live, hb', hlive, -⟩ := h
    cases hb.symm.trans hb'
    have hlt := (List.getElem?_eq_some_iff.mp hlive).1
    rw [length_points] at hlt
    exact Nat.le_of_lt_succ hlt
  -- The induction goes backward through the block, as the live sets do.
  induction hlen using Nat.decreasingInduction with
  | self =>
    obtain ⟨m, hm, hmem⟩ := (marks_behind hb).mp h
    exact .step (.across hb hm) (Function.not_definesAt_behind hb) (htable m hmem)
  | of_succ n hn ih =>
    rcases (marks_iff hx hb (Nat.le_of_lt_succ hn)).mp h with hread | ⟨hnext, hdef⟩
    · exact hread.usedAhead
    · exact .step (.forward hb (Nat.le_of_lt_succ hn)) hdef (ih hnext)

/-- The rounds mark nothing that has no use ahead. -/
theorem usedAhead_of_mem_liveIn (h : liveIn? f refs = some liveIn) (hl : x ∈ liveIn.getD l ∅) :
    f.UsedAhead x ⟨l, 0⟩ := by
  have hx : x ∈ refs := mem_refs_of_mem_liveIn h hl
  rw [liveIn?_eq] at h
  refine settled?_induction (P := fun table => ∀ l, x ∈ table.getD l ∅ → f.UsedAhead x ⟨l, 0⟩)
    (fun table htable => ?_) (fun l hl => ?_) h l hl
  · refine sweep_induction (P := fun table => ∀ l, x ∈ table.getD l ∅ → f.UsedAhead x ⟨l, 0⟩)
      (fun table b hb htable l hl => ?_) htable
    rw [ExtTreeMap.getD_insert] at hl
    split at hl
    · rename_i hlabel
      obtain rfl : b.label = l := LawfulEqCmp.eq_of_compare hlabel
      have hget : f.blocks.get? b.label = some b :=
        Registry.get?_eq_some_of_mem (List.mem_reverse.mp hb)
      exact usedAhead_of_marks hx htable hget ((marks_entry hget).mpr hl)
    · exact htable l hl
  · obtain ⟨live, hlive, hmem⟩ := mem_getD_iff.mp hl
    have hnames : l ∈ f.blocks.names := by
      simpa using ExtTreeMap.mem_iff_isSome_getElem?.mpr (Option.isSome_of_eq_some hlive)
    cases hlive.symm.trans (getElem?_start hnames)
    exact absurd hmem ExtTreeSet.not_mem_empty

/-- The live sets on entry are what they give to the first points of the blocks. -/
theorem mem_liveIn (h : liveIn? f refs = some liveIn) (hb : f.blocks.get? l = some b) :
    x ∈ liveIn.getD l ∅ ↔ Marks f refs liveIn x ⟨l, 0⟩ := by
  obtain rfl : b.label = l := Registry.name_of_get?_eq_some hb
  rw [marks_entry hb, ExtTreeMap.getD_eq_getD_getElem?,
    getElem?_liveIn h (Registry.mem_of_get?_eq_some hb), Option.getD_some]

/-- A table at rest marks each point that has a use ahead. -/
theorem marks_of_usedAhead (hx : x ∈ refs) (h : liveIn? f refs = some liveIn) {p : Point}
    (hp : f.UsedAhead x p) : Marks f refs liveIn x p := by
  obtain ⟨q, hpath, huse⟩ := hp
  induction hpath using Relation.ReflTransGen.head_induction_on with
  | refl =>
    obtain ⟨b, hb, hread⟩ := huse
    exact (marks_iff hx hb (Block.le_length_of_mem_reads hread)).mpr (.inl ⟨b, hb, hread⟩)
  | head hstep _ ih =>
    obtain ⟨hnext, hdef⟩ := hstep
    cases hnext with
    | forward hb hn => exact (marks_iff hx hb hn).mpr (.inr ⟨ih, hdef⟩)
    | @across l m b hb hm =>
      obtain ⟨b', _, hb', -⟩ := id ih
      exact (marks_behind hb).mpr ⟨m, hm, (mem_liveIn h hb').mpr ih⟩

/-- The reference is live at a point exactly if it has a use ahead. -/
theorem marks_iff_usedAhead (hx : x ∈ refs) (h : liveIn? f refs = some liveIn) {p : Point} :
    Marks f refs liveIn x p ↔ f.UsedAhead x p := by
  refine ⟨fun hp => ?_, marks_of_usedAhead hx h⟩
  obtain ⟨b, _, hb, -⟩ := id hp
  exact usedAhead_of_marks hx (fun l => usedAhead_of_mem_liveIn h) hb hp

end Liveness

namespace Function
variable {f : Function}

theorem TargetsExist.checkTargets (h : f.TargetsExist) : f.checkTargets = .ok () := by
  refine Except.forM_eq_ok.mpr fun b hb => Except.forM_eq_ok.mpr fun m hm => ?_
  obtain ⟨target, htarget⟩ :=
    Registry.contains_iff_get?.mp (targetsExist_iff.mp h b (List.mem_reverse.mp hb) m hm)
  rw [block_iff.mpr htarget]
  rfl

end Function

namespace Regions
variable {f : Function} {types : TypeTable} {refs : Names} {live : NameMap LiveSets}

theorem isLiveAfter_iff {r : Regions} {x l : String} {n : Nat} {live : Names}
    (h : (r.liveAfter.getD l [])[n]? = some live) : r.isLiveAfter x l n = true ↔ x ∈ live := by
  rw [isLiveAfter, at?, if_pos (Int.natCast_nonneg n), Int.toNat_natCast, h]
  exact ExtTreeSet.contains_iff_mem

def behindEach (f : Function) (refs : Names) (liveOut : NameMap Names) : NameMap (List Names) :=
  .ofList (f.blocks.entries.map fun b =>
    (b.label, Liveness.afterEach refs b (liveOut.getD b.label ∅)))

/-- Once the live sets are there, it is up to the witnesses whether there are regions. -/
theorem compute_of_live (hrefs : f.refs types = .ok refs) (htargets : f.TargetsExist)
    (hlive : Liveness.live? f refs = some live) (policy : RegionPolicy) :
    compute f types policy = (Witness.table? f refs (live.map fun _ sets => sets.onEntry)
        ((sitesOf f refs).toList.flatMap Prod.snd).length).elim (.error .endless) fun witnessIn =>
      .ok { function := f, policy, refs, liveIn := live.map fun _ sets => sets.onEntry,
            liveOut := live.map fun _ sets => sets.onExit,
            liveAfter := behindEach f refs (live.map fun _ sets => sets.onExit),
            useSites := sitesOf f refs, witnessIn } := by
  rw [compute, Except.bind_of_ok hrefs, Except.bind_of_ok htargets.checkTargets]
  simp only [hlive]
  cases Witness.table? f refs _ ((sitesOf f refs).toList.flatMap Prod.snd).length <;> rfl

end Regions

/-- A reference is stepped on in a loop by an operation that reads and redefines it, and decides
whether the loop goes on. Another one is lent anew in each round and used behind the loop. -/
def Function.steppingLoop : Function :=
  ofParts "steppingLoop" [{ name := "x", type := 1 }, { name := "p", type := 2 },
    { name := "q", type := 2 }]
    [{ label := "entry", body := [{ op := .init "x" none }, { op := .borrow "x" .shared "p" }],
       ending := some { terminator := .jump "head" } },
     { label := "head", body := [{ op := .copy "p" "p" }, { op := .borrow "x" .shared "q" }],
       ending := some { terminator := .branch "head" "done" (some "p") } },
     { label := "done", body := [{ op := .use "q" }], ending := some { terminator := .ret none } }]

namespace Regions

end Regions

end Ownership

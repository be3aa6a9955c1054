import Mathlib.Data.List.Nodup
import Ownership.Proofs.PrunedRegions
import Ownership.Proofs.UsePaths

/-! # The next use that is met

The next use of a reference after a point is found in the block of the point, or handed on from
block to block against the flow of control. Where the reference is live a first use in the block is
never hidden by a definition, so it is looked for without regard to definitions. What is handed on
is met on a path that neither uses nor defines the reference before, and in the end every block has
something to hand on where the reference is live.
-/
namespace Ownership
open Std

/-- A search through the lists of several items comes to the list of one, if the others have nothing
to be found. -/
theorem find?_flatMap_of_mem {α β : Type} {l : List α} {h : α → List β} {p : β → Bool}
    (hl : l.Nodup) {a : α} (ha : a ∈ l) (hother : ∀ c ∈ l, c ≠ a → ∀ y ∈ h c, p y = false) :
    (l.flatMap h).find? p = (h a).find? p := by
  obtain ⟨pre, post, rfl⟩ := List.append_of_mem ha
  have hnone : ∀ cs : List α, a ∉ cs → (∀ c ∈ cs, c ∈ pre ++ a :: post) →
      (cs.flatMap h).find? p = none := by
    intro cs hcs hsub
    refine List.find?_eq_none.mpr fun y hy => ?_
    obtain ⟨c, hc, hy⟩ := List.mem_flatMap.mp hy
    simp [hother c (hsub c hc) (fun heq => hcs (heq ▸ hc)) y hy]
  obtain ⟨-, hpost, hdisjoint⟩ := List.nodup_append.mp hl
  have hpre : a ∉ pre := fun hmem => hdisjoint a hmem a List.mem_cons_self rfl
  rw [List.flatMap_append, List.find?_append, hnone pre hpre (by simp +contextual), Option.none_or,
    List.flatMap_cons,
    List.find?_append, hnone post (List.nodup_cons.mp hpost).1 (by simp +contextual),
    Option.or_none]

namespace Block
variable {b : Block} {x : String} {n k : Nat} {function : String}

def spanAt (b : Block) (n : Nat) : Span := (b.body[n]?.map Instruction.span).getD b.endingSpan

def siteAt (b : Block) (function : String) (n : Nat) : UseSite :=
  ⟨⟨function, b.label, n⟩, b.spanAt n⟩

def firstRead? (b : Block) (x : String) (n : Nat) : Option Nat :=
  (List.range' n (b.body.length + 1 - n)).find? fun k => (b.reads k).contains x

theorem firstRead?_eq_some (h : b.firstRead? x n = some k) :
    n ≤ k ∧ k ≤ b.body.length ∧ x ∈ b.reads k ∧ ∀ j, n ≤ j → j < k → x ∉ b.reads j := by
  obtain ⟨hread, hmem, hbefore⟩ := List.find?_range'_eq_some.mp h
  rw [List.contains_iff_mem] at hread
  have hle := List.left_le_of_mem_range' hmem
  refine ⟨hle, le_length_of_mem_reads hread, hread, fun j hj hjk => ?_⟩
  simpa using hbefore j hj hjk

theorem firstRead?_eq_none (h : b.firstRead? x n = none) : ∀ k, n ≤ k → x ∉ b.reads k := by
  intro k hk hread
  have hle := le_length_of_mem_reads hread
  have hnone := List.find?_eq_none.mp h k (List.mem_range'_1.mpr ⟨hk, by omega⟩)
  simp [hread] at hnone

theorem firstRead?_of_le (hn : n ≤ b.body.length) :
    b.firstRead? x n = if x ∈ b.reads n then some n else b.firstRead? x (n + 1) := by
  have hlength : b.body.length + 1 - n = (b.body.length + 1 - (n + 1)) + 1 := by omega
  rw [firstRead?, hlength, List.range'_succ, List.find?_cons]
  by_cases hread : x ∈ b.reads n
  · simp [hread]
  · simp [hread, firstRead?]

theorem firstRead?_of_length_lt (hn : b.body.length < n) : b.firstRead? x n = none := by
  rw [firstRead?, Nat.sub_eq_zero_of_le hn]
  rfl

/-- The sites from a point on: that of the operation or terminator behind it, if it uses the
reference, and those that follow. -/
theorem sitesFrom_drop (hn : n ≤ b.body.length) : b.sitesFrom function x n (b.body.drop n) =
    (if x ∈ b.reads n then [b.siteAt function n] else []) ++
      if n < b.body.length then b.sitesFrom function x (n + 1 : Nat) (b.body.drop (n + 1))
        else [] := by
  rcases Nat.lt_or_eq_of_le hn with hlt | rfl
  · have hi : b.body[n]? = some b.body[n] := List.getElem?_eq_getElem hlt
    rw [List.drop_eq_getElem_cons hlt, sitesFrom, reads_of_getElem? hi, siteAt, spanAt, hi]
    by_cases hread : x ∈ b.body[n].op.uses <;> simp [hread, hlt]
  · rw [List.drop_length, sitesFrom, reads_length, siteAt, spanAt,
      List.getElem?_eq_none (Nat.le_refl _)]
    by_cases hread : x ∈ b.endingUses <;> simp [hread]

theorem firstUseFrom?_drop (hn : n ≤ b.body.length) : b.firstUseFrom? function x n (b.body.drop n) =
    if x ∈ b.reads n then some (b.siteAt function n)
    else if x ∈ b.defs n then none
    else if n < b.body.length then b.firstUseFrom? function x (n + 1 : Nat) (b.body.drop (n + 1))
      else none := by
  rcases Nat.lt_or_eq_of_le hn with hlt | rfl
  · have hi : b.body[n]? = some b.body[n] := List.getElem?_eq_getElem hlt
    rw [List.drop_eq_getElem_cons hlt, firstUseFrom?, reads_of_getElem? hi, defs_of_getElem? hi,
      siteAt, spanAt, hi]
    by_cases hread : x ∈ b.body[n].op.uses <;> by_cases hdef : x ∈ b.body[n].op.defs <;>
      simp [hread, hdef, hlt]
  · rw [List.drop_length, firstUseFrom?, reads_length, siteAt, spanAt,
      List.getElem?_eq_none (Nat.le_refl _)]
    by_cases hread : x ∈ b.endingUses <;> simp [hread]

/-- The first site behind an index is where the binding is read first. -/
theorem find?_sitesFrom (hn : n ≤ b.body.length) (k : Nat) :
    (b.sitesFrom function x n (b.body.drop n)).find?
      (fun s => s.location.block == b.label && (k : Int) < s.location.index) =
        (b.firstRead? x (max n (k + 1))).map (b.siteAt function) := by
  have hone : ∀ n, (if x ∈ b.reads n then [b.siteAt function n] else []).find?
      (fun s => s.location.block == b.label && (k : Int) < s.location.index) =
      if x ∈ b.reads n ∧ k < n then some (b.siteAt function n) else none := by
    intro n
    by_cases hread : x ∈ b.reads n <;> by_cases hk : k < n <;> simp [hread, hk, siteAt]
  induction hn using Nat.decreasingInduction with
  | self =>
    rw [sitesFrom_drop (Nat.le_refl _), if_neg (Nat.lt_irrefl _), List.append_nil, hone]
    rcases Nat.lt_or_ge k b.body.length with hk | hk
    · rw [Nat.max_eq_left hk, firstRead?_of_le (Nat.le_refl _),
        firstRead?_of_length_lt (Nat.lt_succ_self _)]
      by_cases hread : x ∈ b.endingUses <;> simp [hread, hk]
    · rw [firstRead?_of_length_lt (by omega), if_neg (by omega)]
      rfl
  | of_succ n hn ih =>
    rw [sitesFrom_drop hn.le, if_pos hn, List.find?_append, hone, ih]
    rcases Nat.lt_or_ge k n with hk | hk
    · rw [Nat.max_eq_left hk, Nat.max_eq_left (Nat.le_succ_of_le hk), firstRead?_of_le hn.le]
      by_cases hread : x ∈ b.reads n <;> simp [hread, hk]
    · rw [if_neg (by omega), Option.none_or, Nat.max_eq_right (by omega),
        Nat.max_eq_right (by omega)]

/-- The next use in a block after an index is where the binding is read first. -/
theorem find?_useSites {f : Function} (hb : f.blocks.get? b.label = some b) (n : Nat) :
    (f.useSites x).find? (fun s => s.location.block == b.label && (n : Int) < s.location.index) =
      (b.firstRead? x (n + 1)).map (b.siteAt f.name) := by
  have hmem := Registry.mem_of_get?_eq_some hb
  rw [Function.useSites, find?_flatMap_of_mem (List.Nodup.of_map _ f.blocks.distinct) hmem]
  · exact (find?_sitesFrom (Nat.zero_le _) n).trans (by rw [Nat.zero_max])
  · intro c hc hne s hs
    have hlabel : c.label ≠ b.label := fun heq =>
      hne (List.inj_on_of_nodup_map f.blocks.distinct hc hmem heq)
    rw [block_of_sitesFrom 0 c.body hs, beq_eq_false_iff_ne.mpr hlabel, Bool.false_and]

end Block

namespace Function
variable {f : Function} {x l : String} {b : Block} {n k : Nat} {p q : Point} {site : UseSite}

def Passes (f : Function) (x : String) : Point → Point → Prop :=
  Relation.ReflTransGen fun p p' => f.Next p p' ∧ ¬f.ReadsAt x p ∧ ¬f.DefinesAt x p

def Meets (f : Function) (x : String) (p : Point) (site : UseSite) : Prop :=
  ∃ l b n, f.blocks.get? l = some b ∧ x ∈ b.reads n ∧ site = b.siteAt f.name n ∧ f.Passes x p ⟨l, n⟩

theorem Meets.of_passes (hpath : f.Passes x p q) (h : f.Meets x q site) : f.Meets x p site := by
  obtain ⟨l, b, n, hb, hread, hsite, hrest⟩ := h
  exact ⟨l, b, n, hb, hread, hsite, hpath.trans hrest⟩

/-- What has a use ahead is in a block. -/
theorem UsedAhead.exists_block (h : f.UsedAhead x p) : ∃ b, f.blocks.get? p.block = some b := by
  obtain ⟨q, hpath, b, hb, -⟩ := h
  rcases hpath.cases_head with rfl | ⟨p, ⟨hnext, -⟩, -⟩
  · exact ⟨b, hb⟩
  · cases hnext with
    | forward hb => exact ⟨_, hb⟩
    | across hb => exact ⟨_, hb⟩

/-- What is not used at once is not defined either if it has a use ahead, and the use is ahead of
the next point. -/
theorem UsedAhead.forward (hb : f.blocks.get? l = some b) (hn : n ≤ b.body.length)
    (h : f.UsedAhead x ⟨l, n⟩) (hread : x ∉ b.reads n) :
    x ∉ b.defs n ∧ f.UsedAhead x ⟨l, n + 1⟩ := by
  obtain ⟨q, hpath, huse⟩ := h
  rcases hpath.cases_head with rfl | ⟨p, ⟨hnext, hdef⟩, hpath⟩
  · exact absurd ((readsAt_iff hb).mp huse) hread
  · rw [definesAt_iff hb] at hdef
    cases hnext with
    | forward => exact ⟨hdef, q, hpath, huse⟩
    | across hb' =>
      cases hb.symm.trans hb'
      omega

/-- What has a use ahead behind a terminator has one ahead of a successor. -/
theorem UsedAhead.across (hb : f.blocks.get? l = some b)
    (h : f.UsedAhead x ⟨l, b.body.length + 1⟩) : ∃ m ∈ b.successors, f.UsedAhead x ⟨m, 0⟩ := by
  obtain ⟨q, hpath, huse⟩ := h
  rcases hpath.cases_head with rfl | ⟨p, ⟨hnext, -⟩, hpath⟩
  · rw [readsAt_iff hb, Block.reads_of_length_lt (Nat.lt_succ_self _)] at huse
    cases huse
  · generalize hn : b.body.length + 1 = n at hnext
    cases hnext with
    | forward hb' hle =>
      cases hb.symm.trans hb'
      omega
    | across hb' hm =>
      cases hb.symm.trans hb'
      exact ⟨_, hm, q, hpath, huse⟩

/-- A block is gone through up to the first use of what has a use ahead. -/
theorem UsedAhead.passes (hb : f.blocks.get? l = some b) (h : f.UsedAhead x ⟨l, n⟩) (hnk : n ≤ k)
    (hk : k ≤ b.body.length + 1) (hread : ∀ j, n ≤ j → j < k → x ∉ b.reads j) :
    f.Passes x ⟨l, n⟩ ⟨l, k⟩ ∧ f.UsedAhead x ⟨l, k⟩ := by
  induction hnk with
  | refl => exact ⟨.refl, h⟩
  | @step k hnk ih =>
    obtain ⟨hpath, hused⟩ :=
      ih (Nat.le_of_succ_le hk) fun j hj hjk => hread j hj (Nat.lt_succ_of_lt hjk)
    have hnot := hread k hnk (Nat.lt_succ_self k)
    obtain ⟨hdef, hused⟩ := hused.forward hb (Nat.le_of_succ_le_succ hk) hnot
    refine ⟨hpath.tail ⟨.forward hb (Nat.le_of_succ_le_succ hk), ?_, ?_⟩, hused⟩
    · rwa [readsAt_iff hb]
    · rwa [definesAt_iff hb]

/-- What has a use ahead is read later in the block, or else a successor hands it on, if a block
hands on what it reads and what its successors hand on. -/
theorem UsedAhead.handed {Hands : String → Prop}
    (hstep : ∀ l b, f.blocks.get? l = some b → f.UsedAhead x ⟨l, 0⟩ →
      ((∃ k, b.firstRead? x 0 = some k) ∨ ∃ m ∈ b.successors, Hands m) → Hands l)
    (hb : f.blocks.get? l = some b) (h : f.UsedAhead x ⟨l, n⟩) :
    (∃ k, b.firstRead? x n = some k) ∨ ∃ m ∈ b.successors, Hands m := by
  obtain ⟨q, hpath, huse⟩ := h
  generalize hp : (⟨l, n⟩ : Point) = p at hpath
  -- The use is at the end of the path and is handed back along it.
  induction hpath using Relation.ReflTransGen.head_induction_on generalizing l b n with
  | refl =>
    subst hp
    have hread := (readsAt_iff hb).mp huse
    rw [Block.firstRead?_of_le (Block.le_length_of_mem_reads hread), if_pos hread]
    exact .inl ⟨n, rfl⟩
  | head hnext hrest ih =>
    subst hp
    obtain ⟨hnext, -⟩ := hnext
    cases hnext with
    | forward hb' hn =>
      cases hb.symm.trans hb'
      rw [Block.firstRead?_of_le hn]
      split
      · exact .inl ⟨n, rfl⟩
      · exact ih hb rfl
    | @across _ m _ hb' hm =>
      cases hb.symm.trans hb'
      have hused : f.UsedAhead x ⟨m, 0⟩ := ⟨q, hrest, huse⟩
      obtain ⟨c, hc⟩ := hused.exists_block
      exact .inr ⟨m, hm, hstep m c hc hused (ih hc rfl)⟩

/-- No definition hides the first use in a block of what has a use ahead. -/
theorem UsedAhead.firstUseFrom? (hb : f.blocks.get? l = some b) (hn : n ≤ b.body.length)
    (h : f.UsedAhead x ⟨l, n⟩) :
    b.firstUseFrom? f.name x n (b.body.drop n) = (b.firstRead? x n).map (b.siteAt f.name) := by
  induction hn using Nat.decreasingInduction with
  | self =>
    rw [Block.firstUseFrom?_drop (Nat.le_refl _), Block.firstRead?_of_le (Nat.le_refl _),
      Block.firstRead?_of_length_lt (Nat.lt_succ_self _), if_neg (Nat.lt_irrefl _)]
    split <;> simp
  | of_succ n hn ih =>
    rw [Block.firstUseFrom?_drop hn.le, Block.firstRead?_of_le hn.le, if_pos hn]
    split
    · rfl
    · rename_i hread
      obtain ⟨hdef, hused⟩ := h.forward hb hn.le hread
      rw [if_neg hdef, ih hused]

end Function

namespace Witness
variable {f : Function} {table : NameMap (NameMap UseSite)} {x l : String} {b : Block} {n : Nat}
    {site : UseSite}

/-- The witness of a reference at a point of a block, given those on entry to blocks: its first use
in the block, or else that of the first successor that has one. -/
def from? (f : Function) (table : NameMap (NameMap UseSite)) (b : Block) (x : String) (n : Nat) :
    Option UseSite :=
  ((b.firstRead? x n).map (b.siteAt f.name)).or (ofBlocks? table b.successors x)

theorem ofBlock?_eq (hb : f.blocks.get? l = some b) (h : f.UsedAhead x ⟨l, 0⟩) :
    ofBlock? f table b x = from? f table b x 0 := by
  have hfirst : b.firstUseFrom? f.name x 0 b.body = (b.firstRead? x 0).map (b.siteAt f.name) :=
    h.firstUseFrom? hb (Nat.zero_le _)
  rw [ofBlock?, hfirst, from?]
  cases b.firstRead? x 0 <;> rfl

theorem ofBlocks?_isSome {labels : List String} :
    (ofBlocks? table labels x).isSome = true ↔ ∃ m ∈ labels, ((table.getD m ∅)[x]?).isSome = true :=
  List.findSome?_isSome_iff

theorem from?_isSome : (from? f table b x n).isSome = true ↔
    (∃ k, b.firstRead? x n = some k) ∨
      ∃ m ∈ b.successors, ((table.getD m ∅)[x]?).isSome = true := by
  rw [from?, Option.isSome_or, Bool.or_eq_true, ofBlocks?_isSome, Option.isSome_map,
    Option.isSome_iff_exists]

/-- A witness at a point is met from there, if those of the table are met from the entries of their
blocks. -/
theorem meets_of_from? (htable : ∀ m site, (table.getD m ∅)[x]? = some site → f.Meets x ⟨m, 0⟩ site)
    (hb : f.blocks.get? l = some b) (hn : n ≤ b.body.length + 1) (h : f.UsedAhead x ⟨l, n⟩)
    (hsite : from? f table b x n = some site) : f.Meets x ⟨l, n⟩ site := by
  rw [from?] at hsite
  cases hfirst : b.firstRead? x n with
  | some k =>
    rw [hfirst] at hsite
    cases hsite
    obtain ⟨hnk, hk, hread, hbefore⟩ := Block.firstRead?_eq_some hfirst
    exact ⟨l, b, k, hb, hread, rfl, (h.passes hb hnk (Nat.le_succ_of_le hk) hbefore).1⟩
  | none =>
    rw [hfirst] at hsite
    obtain ⟨m, hm, hentry⟩ := List.exists_of_findSome?_eq_some hsite
    have hpath :=
      (h.passes hb hn (Nat.le_refl _) fun j hj _ => Block.firstRead?_eq_none hfirst j hj).1
    refine (htable m site hentry).of_passes
      (hpath.tail ⟨.across hb hm, ?_, Function.not_definesAt_behind hb⟩)
    rw [Function.readsAt_iff hb, Block.reads_of_length_lt (Nat.lt_succ_self _)]
    exact List.not_mem_nil

section Rounds
variable {refs : Names} {liveIn : NameMap Names} {t : NameMap (NameMap UseSite)}

theorem getElem?_entry (x : String) :
    (entry f liveIn t b)[x]? = if x ∈ liveIn.getD b.label ∅ then ofBlock? f t b x else none :=
  getElem?_ofList_filterMap ..

/-- In a round a block gets a witness for each reference that has a use ahead on its entry, as far
as the table has one. -/
theorem getElem?_entry_of_liveIn (hlive : Liveness.liveIn? f refs = some liveIn) (hx : x ∈ refs)
    (hb : f.blocks.get? b.label = some b) (h : f.UsedAhead x ⟨b.label, 0⟩) :
    (entry f liveIn t b)[x]? = from? f t b x 0 := by
  have hmem := (Liveness.mem_liveIn hlive hb).mpr (Liveness.marks_of_usedAhead hx hlive h)
  rw [getElem?_entry, if_pos hmem, ofBlock?_eq hb h]

def Genuine (f : Function) (refs : Names) (t : NameMap (NameMap UseSite)) : Prop :=
  ∀ l x site, (t.getD l ∅)[x]? = some site → x ∈ refs ∧ f.Meets x ⟨l, 0⟩ site

theorem getElem?_start (f : Function) (l x : String) : ((start f).getD l ∅)[x]? = none := by
  rw [ExtTreeMap.getD_eq_getD_getElem?]
  by_cases hl : l ∈ f.blocks.names
  · rw [start, Liveness.getElem?_start hl]
    rfl
  · have hnone : (start f)[l]? = none := ExtTreeMap.getElem?_eq_none (by simpa [start] using hl)
    rw [hnone]
    rfl

theorem genuine_start (f : Function) (refs : Names) :
    Genuine f refs (start f) := fun l x site h => by
  rw [getElem?_start] at h
  cases h

theorem Genuine.round (hlive : Liveness.liveIn? f refs = some liveIn) (h : Genuine f refs t) :
    Genuine f refs (round f liveIn t) := by
  refine sweep_induction (P := Genuine f refs) (fun t b hb ht l x site hsite => ?_) h
  rw [ExtTreeMap.getD_insert] at hsite
  split at hsite
  · rename_i hlabel
    obtain rfl : b.label = l := LawfulEqCmp.eq_of_compare hlabel
    have hget : f.blocks.get? b.label = some b :=
      Registry.get?_eq_some_of_mem (List.mem_reverse.mp hb)
    rw [getElem?_entry] at hsite
    split at hsite
    · rename_i hx
      have hused := Liveness.usedAhead_of_mem_liveIn hlive hx
      rw [ofBlock?_eq hget hused] at hsite
      refine ⟨Liveness.mem_refs_of_mem_liveIn hlive hx, ?_⟩
      exact meets_of_from? (fun m site h => (ht m x site h).2) hget (Nat.zero_le _) hused hsite
    · cases hsite
  · exact ht l x site hsite

theorem genuine_of_table? {sites : Nat} (hlive : Liveness.liveIn? f refs = some liveIn)
    (h : table? f refs liveIn sites = some t) : Genuine f refs t :=
  settled?_induction (fun _ ht => ht.round hlive) (genuine_start f refs) h

theorem getD_of_table? {sites : Nat} (h : table? f refs liveIn sites = some t)
    (hb : f.blocks.get? l = some b) : t.getD l ∅ = entry f liveIn t b := by
  obtain rfl : b.label = l := Registry.name_of_get?_eq_some hb
  have hentry : t[b.label]? = some (entry f liveIn t b) :=
    getElem?_of_sweep_eq f.blocks.distinct_reverse (step_of_settled? h)
      (List.mem_reverse.mpr (Registry.mem_of_get?_eq_some hb))
  rw [ExtTreeMap.getD_eq_getD_getElem?, hentry, Option.getD_some]

/-- Where a table at rest is asked for a use that is ahead, it has one. -/
theorem from?_isSome_of_table? {sites : Nat} (hlive : Liveness.liveIn? f refs = some liveIn)
    (hx : x ∈ refs) (h : table? f refs liveIn sites = some t) (hb : f.blocks.get? l = some b)
    (hused : f.UsedAhead x ⟨l, n⟩) :
    (from? f t b x n).isSome = true := by
  refine from?_isSome.mpr (hused.handed (fun m c hc hused hm => ?_) hb)
  obtain rfl : c.label = m := Registry.name_of_get?_eq_some hc
  rw [getD_of_table? h hc, getElem?_entry_of_liveIn hlive hx hc hused]
  exact from?_isSome.mpr hm

end Rounds

end Witness

namespace Regions
variable {f : Function} {types : TypeTable} {policy : RegionPolicy} {r : Regions} {x l : String}
    {b : Block} {n : Nat}

/-- The next use of a live reference is looked for in the block and then on entry to its
successors. -/
theorem Computed.nextUse_eq (h : Computed f types r) (href : f.IsRef types x)
    (hb : f.blocks.get? l = some b) (hlive : r.isLiveAfter x l n = true) :
    r.nextUse x l n = Witness.from? f r.witnessIn b x (n + 1) := by
  obtain rfl : b.label = l := Registry.name_of_get?_eq_some hb
  have hsites : r.useSites.getD x [] = f.useSites x := by
    rw [h.useSites, getD_sitesOf, if_pos (h.mem_refs.mpr href)]
  have hsuccessors : r.successors b.label = b.successors := by rw [successors, h.function, hb]
  rw [nextUse, if_pos hlive, hsites, hsuccessors, Block.find?_useSites hb, Witness.from?]
  cases b.firstRead? x (n + 1) <;> rfl

/-- Once the regions of a function are there, a reference has a next use behind an operation or a
terminator exactly if it is live there. The next use is an operation or terminator that uses the
reference, and a path leads to it on which the reference is neither used nor defined before. -/
theorem nextUse_meets (h : compute f types policy = .ok r) (href : f.IsRef types x)
    (hb : f.blocks.get? l = some b) (hn : n ≤ b.body.length) :
    ((r.nextUse x l n).isSome = true ↔ r.isLiveAfter x l n = true) ∧
      ∀ site, r.nextUse x l n = some site → f.Meets x ⟨l, n + 1⟩ site := by
  have hr := (compute_inv h).1
  obtain ⟨sites, htable⟩ := hr.witnessIn
  have hx : x ∈ r.refs := hr.mem_refs.mpr href
  by_cases hlive : r.isLiveAfter x l n = true
  · have hused : f.UsedAhead x ⟨l, n + 1⟩ := by
      refine (Liveness.marks_iff_usedAhead hx hr.liveIn).mp ?_
      obtain ⟨live, hpoint, hmem⟩ := (hr.isLiveAt_iff (n := n + 1) hb).mp hlive
      exact ⟨b, live, hb, hpoint, hmem⟩
    rw [hr.nextUse_eq href hb hlive]
    refine ⟨iff_of_true (Witness.from?_isSome_of_table? hr.liveIn hx htable hb hused) hlive,
      fun site hsite => ?_⟩
    refine Witness.meets_of_from? (fun m site h => ?_) hb (Nat.succ_le_succ hn) hused hsite
    exact (Witness.genuine_of_table? hr.liveIn htable m x site h).2
  · rw [nextUse, if_neg hlive]
    exact ⟨iff_of_false Bool.false_ne_true hlive, fun site hsite => by cases hsite⟩

/-- Behind the second operation of the loop the reference that is lent anew there is used next
behind the loop, although the loop may go on. Behind the terminator the other one is used next where
the loop begins. -/
theorem nextUse_steppingLoop : ∃ r site site', compute .steppingLoop .basic .lastUse = .ok r ∧
    r.nextUse "q" "head" 1 = some site ∧ site.location = ⟨"steppingLoop", "done", 0⟩ ∧
    Function.steppingLoop.Meets "q" ⟨"head", 2⟩ site ∧
    r.nextUse "p" "head" 2 = some site' ∧ site'.location = ⟨"steppingLoop", "head", 0⟩ ∧
    Function.steppingLoop.Meets "p" ⟨"head", 3⟩ site' ∧ r.nextUse "q" "head" 0 = none := by
  have hrun : (do
      let r ← compute .steppingLoop .basic .lastUse
      return (r.nextUse "q" "head" 1).map UseSite.location = some ⟨"steppingLoop", "done", 0⟩ ∧
        (r.nextUse "p" "head" 2).map UseSite.location = some ⟨"steppingLoop", "head", 0⟩ ∧
        r.isLiveAfter "q" "head" 0 = false :
      Except Fault Bool) = .ok true := by decide +kernel
  obtain ⟨r, hr, hrun⟩ := Except.bind_inv hrun
  obtain ⟨hq, hp, hdead⟩ := of_decide_eq_true (Except.ok.inj hrun)
  obtain ⟨site, hsite, hlocation⟩ := Option.map_eq_some_iff.mp hq
  obtain ⟨site', hsite', hlocation'⟩ := Option.map_eq_some_iff.mp hp
  have hblock : Function.steppingLoop.blocks.get? "head" = some _ := rfl
  obtain ⟨-, hmeets⟩ :=
    nextUse_meets (n := 1) hr (x := "q") ⟨_, _, rfl, rfl, rfl⟩ hblock (by decide)
  obtain ⟨-, hmeets'⟩ :=
    nextUse_meets (n := 2) hr (x := "p") ⟨_, _, rfl, rfl, rfl⟩ hblock (by decide)
  obtain ⟨hsome, -⟩ := nextUse_meets (n := 0) hr (x := "q") ⟨_, _, rfl, rfl, rfl⟩ hblock (by decide)
  refine ⟨r, site, site', hr, hsite, hlocation, hmeets site hsite, hsite', hlocation',
    hmeets' site' hsite', ?_⟩
  rw [← Option.not_isSome_iff_eq_none]
  exact fun h => absurd (hsome.mp h) (Bool.eq_false_iff.mp hdead)

end Regions
end Ownership

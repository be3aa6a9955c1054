import Mathlib.Data.Fintype.BigOperators
import Mathlib.Order.Filter.AtTopBot.Basic
import Mathlib.Order.Filter.Finite
import Ownership.Proofs.NextUse
import Ownership.Proofs.TableOrder

/-! # Witnesses that go round

A block that does not read a reference takes over the witness of its first successor that has one.
On a way round, where blocks take from one another, a witness is handed on within a round from each
block to those before it in the table, and to the others only in the next round. If just one step of
a way round goes back in the table, the witnesses on it come to rest. If there are more, different
witnesses may follow one another round and round, and then there are no regions. The number of
rounds that are tried is never too small: rounds that come to rest at all do so before.
-/
namespace Ownership
open Std Filter

section States
variable {α : Type} {step : α → α} {x : α} {n : Nat}

/-- Before a repetition comes to rest it is nowhere twice. -/
theorem iterate_ne (hrest : step^[n + 1] x = step^[n] x) {i j : Nat}
    (hi : step^[i + 1] x ≠ step^[i] x) (hij : i < j) : step^[i] x ≠ step^[j] x := by
  intro heq
  have hperiod : ∀ k, step^[i + (j - i) * k] x = step^[i] x := by
    intro k
    induction k with
    | zero => rfl
    | succ k ih =>
      have hshift : i + (j - i) * (k + 1) = (j - i) * k + j := by
        rw [Nat.mul_succ]
        omega
      rw [hshift, Function.iterate_add_apply, ← heq, ← Function.iterate_add_apply, Nat.add_comm, ih]
  have hlate : n ≤ i + (j - i) * n :=
    Nat.le_add_left_of_le (Nat.le_mul_of_pos_left n (Nat.sub_pos_of_lt hij))
  have hsame : step^[i] x = step^[n] x := (hperiod n).symm.trans (iterate_of_rest hrest hlate)
  apply hi
  rw [Function.iterate_succ_apply', hsame, ← Function.iterate_succ_apply' step, hrest]

/-- A repetition that comes to rest does so before it has been through more values than there
are. -/
theorem exists_settled? [DecidableEq α] {σ : Type} [Fintype σ] {code : α → σ}
    (hcode : ∀ i j, code (step^[i] x) = code (step^[j] x) → step^[i] x = step^[j] x)
    (hn : Fintype.card σ ≤ n)
    (hrest : ∃ i, step^[i + 1] x = step^[i] x) : ∃ y, settled? step n x = some y := by
  obtain ⟨i, hi⟩ := hrest
  by_cases hsettled : step^[n + 1] x = step^[n] x
  · exact ⟨_, settled?_eq_some.mpr ⟨hsettled, rfl⟩⟩
  · have hmoves : ∀ j ≤ n, step^[j + 1] x ≠ step^[j] x := by
      intro j hj hstay
      apply hsettled
      rw [iterate_of_rest hstay hj, iterate_of_rest hstay (Nat.le_succ_of_le hj)]
    have hinj : Function.Injective fun j : Fin (n + 1) => code (step^[j] x) := by
      intro j k hjk
      rcases Nat.lt_trichotomy j k with hlt | heq | hlt
      · exact absurd (hcode _ _ hjk) (iterate_ne hi (hmoves j (Nat.le_of_lt_succ j.isLt)) hlt)
      · exact Fin.ext heq
      · exact absurd (hcode _ _ hjk.symm) (iterate_ne hi (hmoves k (Nat.le_of_lt_succ k.isLt)) hlt)
    have hcard := Fintype.card_le_of_injective _ hinj
    rw [Fintype.card_fin] at hcard
    omega

end States

section Tables
variable {α : Type} {rows columns : List String} {values : List α} {t u : NameMap (NameMap α)}

structure Within (rows columns : List String) (values : List α)
    (t : NameMap (NameMap α)) : Prop where
  keys : ∀ l, l ∈ t ↔ l ∈ rows
  entries : ∀ l x a, (t.getD l ∅)[x]? = some a → x ∈ columns ∧ a ∈ values

theorem Within.ext (ht : Within rows columns values t) (hu : Within rows columns values u)
    (h : ∀ l ∈ rows, ∀ x ∈ columns, (t.getD l ∅)[x]? = (u.getD l ∅)[x]?) : t = u := by
  have hnone : ∀ {t : NameMap (NameMap α)}, Within rows columns values t → ∀ l x, x ∉ columns →
      (t.getD l ∅)[x]? = none :=
    fun ht l x hx => Option.eq_none_iff_forall_ne_some.mpr fun a ha => hx (ht.entries l x a ha).1
  refine ExtTreeMap.ext_getElem? fun {l} => ?_
  by_cases hl : l ∈ rows
  · have hrow : t.getD l ∅ = u.getD l ∅ := by
      refine ExtTreeMap.ext_getElem? fun {x} => ?_
      by_cases hx : x ∈ columns
      · exact h l hl x hx
      · rw [hnone ht l x hx, hnone hu l x hx]
    have hsome : ∀ {t : NameMap (NameMap α)}, Within rows columns values t →
        t[l]? = some (t.getD l ∅) := by
      intro t ht
      rw [ExtTreeMap.getElem?_eq_some_getElem ((ht.keys l).mpr hl), ExtTreeMap.getElem_eq_getD]
    rw [hsome ht, hsome hu, hrow]
  · rw [ExtTreeMap.getElem?_eq_none (mt (ht.keys l).mp hl),
      ExtTreeMap.getElem?_eq_none (mt (hu.keys l).mp hl)]

def cells [BEq α] (rows columns : List String) (values : List α) (t : NameMap (NameMap α)) :
    Fin rows.length × Fin columns.length → Option (Fin values.length) :=
  fun p => ((t.getD rows[p.1] ∅)[columns[p.2]]?).bind values.finIdxOf?

theorem bind_finIdxOf?_inj [BEq α] [LawfulBEq α] {o o' : Option α}
    (ho : ∀ a, o = some a → a ∈ values) (ho' : ∀ a, o' = some a → a ∈ values)
    (h : o.bind values.finIdxOf? = o'.bind values.finIdxOf?) : o = o' := by
  have hfind : ∀ a ∈ values, ∃ i : Fin values.length, values.finIdxOf? a = some i ∧
      values[i] = a := by
    intro a ha
    cases hi : values.finIdxOf? a with
    | none => exact absurd ha (List.finIdxOf?_eq_none_iff.mp hi)
    | some i => exact ⟨i, rfl, (List.finIdxOf?_eq_some_iff.mp hi).1⟩
  cases o with
  | none =>
    cases o' with
    | none => rfl
    | some b =>
      obtain ⟨j, hj, -⟩ := hfind b (ho' b rfl)
      simp [hj] at h
  | some a =>
    obtain ⟨i, hi, rfl⟩ := hfind a (ho a rfl)
    cases o' with
    | none => simp at h
    | some b =>
      obtain ⟨j, hj, rfl⟩ := hfind b (ho' b rfl)
      simp only [Option.bind_some, hi, hj, Option.some.injEq] at h
      rw [h]

theorem Within.eq_of_cells [BEq α] [LawfulBEq α] (ht : Within rows columns values t)
    (hu : Within rows columns values u)
    (h : cells rows columns values t = cells rows columns values u) : t = u := by
  refine ht.ext hu fun l hl x hx => ?_
  obtain ⟨i, hi, rfl⟩ := List.getElem_of_mem hl
  obtain ⟨j, hj, rfl⟩ := List.getElem_of_mem hx
  exact bind_finIdxOf?_inj (fun a ha => (ht.entries _ _ a ha).2)
    (fun a ha => (hu.entries _ _ a ha).2) (congrFun h (⟨i, hi⟩, ⟨j, hj⟩))

end Tables

/-- What holds of all later steps holds of all later numbers of steps. -/
theorem eventually_succ {P : Nat → Prop} : (∀ᶠ k in atTop, P (k + 1)) ↔ ∀ᶠ k in atTop, P k := by
  conv_rhs => rw [← map_add_atTop_eq_nat 1, eventually_map]

section Ways
variable {α : Type} {R B : α → α → Prop} {a b : α}

/-- A way goes back nowhere, or there is a first step on it that does. -/
theorem first_back (h : Relation.ReflTransGen R a b) :
    Relation.ReflTransGen (fun a b => R a b ∧ ¬B a b) a b ∨
    ∃ c d, Relation.ReflTransGen (fun a b => R a b ∧ ¬B a b) a c ∧ R c d ∧ B c d ∧
      Relation.ReflTransGen R d b := by
  induction h using Relation.ReflTransGen.head_induction_on with
  | refl => exact .inl .refl
  | @head a c hstep hrest ih =>
    by_cases hback : B a c
    · exact .inr ⟨a, c, .refl, hstep, hback, hrest⟩
    · rcases ih with hforth | ⟨d, e, hforth, hlast⟩
      · exact .inl (.head ⟨hstep, hback⟩ hforth)
      · exact .inr ⟨d, e, .head ⟨hstep, hback⟩ hforth, hlast⟩

theorem reflTransGen_of_forth (h : Relation.ReflTransGen (fun a b => R a b ∧ ¬B a b) a b) :
    Relation.ReflTransGen R a b :=
  Relation.ReflTransGen.mono (fun _ _ hstep => hstep.1) _ _ h

end Ways

theorem Block.siteAt_mem_sitesFrom {b : Block} {function x : String} {n k : Nat}
    (hread : x ∈ b.reads n) (hk : k ≤ n) :
    b.siteAt function n ∈ b.sitesFrom function x k (b.body.drop k) := by
  have hn := le_length_of_mem_reads hread
  induction hk using Nat.decreasingInduction with
  | self =>
    rw [sitesFrom_drop hn, if_pos hread]
    exact List.mem_cons_self
  | of_succ k hk ih =>
    rw [sitesFrom_drop (by omega), if_pos (by omega : k < b.body.length)]
    exact List.mem_append_right _ ih

theorem Regions.mem_sitesOf {f : Function} {refs : Names} {x : String} {site : UseSite}
    (hx : x ∈ refs) (h : site ∈ f.useSites x) :
    site ∈ (sitesOf f refs).toList.flatMap Prod.snd := by
  have hentry : (sitesOf f refs)[x]? = some (f.useSites x) := by
    rw [getElem?_sitesOf, if_pos ⟨hx, List.ne_nil_of_mem h⟩]
  exact List.mem_flatMap.mpr ⟨_, ExtTreeMap.mem_toList_iff_getElem?_eq_some.mpr hentry, h⟩

namespace Function
variable {f : Function} {x l m : String} {b : Block}

def GoesBack (f : Function) (l m : String) : Prop := f.blocks.names.idxOf m ≤ f.blocks.names.idxOf l

/-- The reference is not read in the first block, and the second is the first of its successors on
whose entry it has a use ahead. -/
def TakesFrom (f : Function) (x l m : String) : Prop :=
  f.UsedAhead x ⟨l, 0⟩ ∧ ∃ b pre post, f.blocks.get? l = some b ∧ (∀ n, x ∉ b.reads n) ∧
    b.successors = pre ++ m :: post ∧ f.UsedAhead x ⟨m, 0⟩ ∧ ∀ c ∈ pre, ¬f.UsedAhead x ⟨c, 0⟩

/-- Of the steps on one way round at most one goes back in the table. -/
def BacksOnce (f : Function) (x : String) : Prop :=
  ∀ l m l' m', f.TakesFrom x l m → f.GoesBack l m → f.TakesFrom x l' m' → f.GoesBack l' m' →
    Relation.ReflTransGen (f.TakesFrom x) m l' → Relation.ReflTransGen (f.TakesFrom x) m' l → l = l'

theorem siteAt_mem_useSites {n : Nat} (hb : f.blocks.get? l = some b) (hread : x ∈ b.reads n) :
    b.siteAt f.name n ∈ f.useSites x :=
  List.mem_flatMap.mpr ⟨b, Registry.mem_of_get?_eq_some hb,
    Block.siteAt_mem_sitesFrom hread (Nat.zero_le n)⟩

theorem Meets.usedAhead {p : Point} {site : UseSite} (h : f.Meets x p site) : f.UsedAhead x p := by
  obtain ⟨l, b, n, hb, hread, -, hpath⟩ := h
  exact ⟨⟨l, n⟩, Relation.ReflTransGen.mono (fun _ _ hstep => ⟨hstep.1, hstep.2.2⟩) _ _ hpath,
    b, hb, hread⟩

/-- What has a use ahead on entry to a block is read in it or handed on by a successor. -/
theorem UsedAhead.cases_entry (hb : f.blocks.get? l = some b) (h : f.UsedAhead x ⟨l, 0⟩) :
    (∃ n, b.firstRead? x 0 = some n) ∨ ∃ m, f.TakesFrom x l m := by
  cases hfirst : b.firstRead? x 0 with
  | some n => exact .inl ⟨n, rfl⟩
  | none =>
    have hread : ∀ n, x ∉ b.reads n := fun n => Block.firstRead?_eq_none hfirst n (Nat.zero_le _)
    obtain ⟨-, hbehind⟩ := h.passes hb (Nat.zero_le _) (Nat.le_refl _) fun n _ _ => hread n
    obtain ⟨m, hm, hused⟩ := hbehind.across hb
    classical
    have hsome : (b.successors.find? fun m => f.UsedAhead x ⟨m, 0⟩).isSome = true :=
      List.find?_isSome.mpr ⟨m, hm, by simpa using hused⟩
    obtain ⟨m, hfind⟩ := Option.isSome_iff_exists.mp hsome
    obtain ⟨hused, pre, post, hsplit, hpre⟩ := List.find?_eq_some_iff_append.mp hfind
    refine .inr ⟨m, h, b, pre, post, hb, hread, hsplit, by simpa using hused,
      fun c hc => by simpa using hpre c hc⟩

theorem TakesFrom.mem_names (h : f.TakesFrom x l m) : m ∈ f.blocks.names := by
  obtain ⟨-, -, -, -, -, -, -, hm, -⟩ := h
  exact Registry.contains_iff_mem_names.mp (Registry.contains_iff_get?.mpr hm.exists_block)

theorem TakesFrom.edge (h : f.TakesFrom x l m) : f.Edge l m := by
  obtain ⟨-, b, pre, post, hb, -, hsplit, -, -⟩ := h
  exact ⟨b, hb, by simp [hsplit]⟩

theorem goesBack_of_forth
    (h : Relation.ReflTransGen (fun l m => f.TakesFrom x l m ∧ ¬f.GoesBack l m) l m) :
    f.GoesBack m l := by
  induction h with
  | refl => exact Nat.le_refl _
  | tail _ hstep ih => exact Nat.le_trans ih (Nat.le_of_not_le hstep.2)

def Upstream (f : Function) (x : String) (m l : {l // l ∈ f.blocks.names}) : Prop :=
  Relation.TransGen (f.TakesFrom x) l m ∧ ¬Relation.TransGen (f.TakesFrom x) l l

theorem upstream_wellFounded (f : Function) (x : String) : WellFounded (f.Upstream x) :=
  have : IsTrans _ (f.Upstream x) :=
    ⟨fun _ _ _ hfirst hsecond => ⟨hsecond.1.trans hfirst.1, hsecond.2⟩⟩
  have : Std.Irrefl (f.Upstream x) := ⟨fun _ h => h.2 h.1⟩
  Finite.wellFounded_of_trans_of_irrefl (f.Upstream x)

end Function

namespace Witness
variable {f : Function} {refs : Names} {liveIn : NameMap Names} {x l m : String}
    {b : Block} {k : Nat}

def found (f : Function) (liveIn : NameMap Names) (x : String) (k : Nat) (l : String) :
    Option UseSite :=
  (((round f liveIn)^[k] (start f)).getD l ∅)[x]?

theorem mem_iterate_round (k : Nat) : l ∈ (round f liveIn)^[k] (start f) ↔ l ∈ f.blocks.names := by
  induction k with
  | zero => simp [start]
  | succ k ih =>
    rw [Function.iterate_succ_apply']
    refine mem_sweep.trans ?_
    rw [ih, List.map_reverse, List.mem_reverse]
    exact or_self_iff

theorem genuine_iterate (hlive : Liveness.liveIn? f refs = some liveIn) (k : Nat) :
    Genuine f refs ((round f liveIn)^[k] (start f)) :=
  Function.Iterate.rec (Genuine f refs) (genuine_start f refs) (fun _ ht => ht.round hlive) k

theorem found_eq_none (hlive : Liveness.liveIn? f refs = some liveIn)
    (h : ¬f.UsedAhead x ⟨l, 0⟩) (k : Nat) : found f liveIn x k l = none :=
  Option.eq_none_iff_forall_ne_some.mpr fun site hsite =>
    h (genuine_iterate hlive k l x site hsite).2.usedAhead

/-- The names behind one of the table are those that do not go back from it. -/
theorem mem_behind {names pre post : List String} (hsplit : names = pre ++ l :: post)
    (hdistinct : names.Nodup) (hm : m ∈ names) : m ∈ post ↔ ¬names.idxOf m ≤ names.idxOf l := by
  subst hsplit
  grind

/-- In a round each block finds what the blocks behind it in the table have found in this round, and
what the others had before. -/
theorem found_succ (hlive : Liveness.liveIn? f refs = some liveIn) (hx : x ∈ refs)
    (hb : f.blocks.get? l = some b) (hused : f.UsedAhead x ⟨l, 0⟩) (k : Nat) :
    ∃ t, found f liveIn x (k + 1) l = from? f t b x 0 ∧
      ∀ m, (f.GoesBack l m → (t.getD m ∅)[x]? = found f liveIn x k m) ∧
        (¬f.GoesBack l m → (t.getD m ∅)[x]? = found f liveIn x (k + 1) m) := by
  obtain rfl : b.label = l := Registry.name_of_get?_eq_some hb
  have hmem := List.mem_reverse.mpr (Registry.mem_of_get?_eq_some hb)
  obtain ⟨pre, post, hsplit⟩ := List.append_of_mem hmem
  have hnames : f.blocks.names =
      post.reverse.map Named.name ++ b.label :: pre.reverse.map Named.name := by
    rw [Registry.names, ← List.reverse_reverse f.blocks.entries, hsplit, List.reverse_append,
      List.reverse_cons, List.append_assoc, List.map_append]
    rfl
  have hround : sweep (pre ++ b :: post) (entry f liveIn) ((round f liveIn)^[k] (start f)) =
      (round f liveIn)^[k + 1] (start f) := by
    rw [← hsplit]
    exact (Function.iterate_succ_apply' (round f liveIn) k (start f)).symm
  obtain ⟨hentry, hsweep⟩ := getElem?_sweep (entry f liveIn) ((round f liveIn)^[k] (start f))
    (hsplit ▸ f.blocks.distinct_reverse)
  rw [hround] at hentry hsweep
  refine ⟨sweep pre (entry f liveIn) ((round f liveIn)^[k] (start f)), ?_, fun m => ?_⟩
  · have hlabel : ((round f liveIn)^[k + 1] (start f))[b.label]? = some _ := hentry
    rw [found, ExtTreeMap.getD_eq_getD_getElem?, hlabel, Option.getD_some,
      getElem?_entry_of_liveIn hlive hx hb hused]
  · rw [ExtTreeMap.getD_eq_getD_getElem?, hsweep, found, found, ExtTreeMap.getD_eq_getD_getElem?,
      ExtTreeMap.getD_eq_getD_getElem?]
    by_cases hm : m ∈ f.blocks.names
    · have hpre := mem_behind hnames f.blocks.distinct hm
      rw [List.map_reverse, List.mem_reverse] at hpre
      exact ⟨fun hback => by rw [if_neg fun h => hpre.mp h hback],
        fun hforth => by rw [if_pos (hpre.mpr hforth)]⟩
    · have hnone : ∀ k, ((round f liveIn)^[k] (start f))[m]? = none :=
        fun k => ExtTreeMap.getElem?_eq_none (mt (mem_iterate_round k).mp hm)
      rw [hnone k, hnone (k + 1), ite_self]
      exact ⟨fun _ => rfl, fun _ => rfl⟩

section Presence
variable (hlive : Liveness.liveIn? f refs = some liveIn) (hx : x ∈ refs)
include hlive hx

/-- From some round on there is a witness where the reference has a use ahead. -/
theorem eventually_isSome (hused : f.UsedAhead x ⟨l, 0⟩) :
    ∀ᶠ k in atTop, (found f liveIn x k l).isSome = true := by
  have hstep : ∀ l b, f.blocks.get? l = some b → f.UsedAhead x ⟨l, 0⟩ →
      ((∃ n, b.firstRead? x 0 = some n) ∨ ∃ m ∈ b.successors, ∀ᶠ k in atTop,
        (found f liveIn x k m).isSome = true) →
      ∀ᶠ k in atTop, (found f liveIn x k l).isSome = true := by
    intro l b hb hused hhands
    rw [← eventually_succ]
    rcases hhands with hread | ⟨m, hm, hsome⟩
    · refine .of_forall fun k => ?_
      obtain ⟨t, hfound, -⟩ := found_succ hlive hx hb hused k
      rw [hfound]
      exact from?_isSome.mpr (.inl hread)
    · filter_upwards [hsome, eventually_succ.mpr hsome] with k hbefore hafter
      obtain ⟨t, hfound, ht⟩ := found_succ hlive hx hb hused k
      rw [hfound]
      refine from?_isSome.mpr (.inr ⟨m, hm, ?_⟩)
      by_cases hback : f.GoesBack l m
      · rwa [(ht m).1 hback]
      · rwa [(ht m).2 hback]
  obtain ⟨b, hb⟩ := hused.exists_block
  exact hstep l b hb hused (hused.handed hstep hb)

/-- From some round on a block that does not read the reference finds what the block has that it
takes from: in the same round, or one round later if that block is not behind it in the table. -/
theorem found_takesFrom (h : f.TakesFrom x l m) : ∀ᶠ k in atTop,
    (f.GoesBack l m → found f liveIn x (k + 1) l = found f liveIn x k m) ∧
      (¬f.GoesBack l m → found f liveIn x (k + 1) l = found f liveIn x (k + 1) m) := by
  obtain ⟨hused, b, pre, post, hb, hread, hsplit, hm, hpre⟩ := h
  have hfirst : b.firstRead? x 0 = none :=
    Option.eq_none_iff_forall_ne_some.mpr fun n hn => hread n (Block.firstRead?_eq_some hn).2.2.1
  have hsome := eventually_isSome hlive hx hm
  filter_upwards [hsome, eventually_succ.mpr hsome] with k hbefore hafter
  obtain ⟨t, hfound, ht⟩ := found_succ hlive hx hb hused k
  have hpre : pre.findSome? (fun c => (t.getD c ∅)[x]?) = none := by
    refine List.findSome?_eq_none_iff.mpr fun c hc => ?_
    by_cases hback : f.GoesBack l c
    · rw [(ht c).1 hback, found_eq_none hlive (hpre c hc)]
    · rw [(ht c).2 hback, found_eq_none hlive (hpre c hc)]
  have htake : ∀ site, (t.getD m ∅)[x]? = some site → found f liveIn x (k + 1) l = some site := by
    intro site hsite
    rw [hfound, from?, hfirst, Option.map_none, Option.none_or, ofBlocks?, hsplit,
      List.findSome?_append, hpre, Option.none_or, List.findSome?_cons, hsite]
  constructor
  · intro hback
    obtain ⟨site, hsite⟩ := Option.isSome_iff_exists.mp hbefore
    rw [htake site (((ht m).1 hback).trans hsite), hsite]
  · intro hforth
    obtain ⟨site, hsite⟩ := Option.isSome_iff_exists.mp hafter
    rw [htake site (((ht m).2 hforth).trans hsite), hsite]

end Presence

def RestsAt (f : Function) (liveIn : NameMap Names) (x l : String) : Prop :=
  ∀ᶠ k in atTop, found f liveIn x (k + 1) l = found f liveIn x k l

section Rest
variable (hlive : Liveness.liveIn? f refs = some liveIn) (hx : x ∈ refs)
include hlive hx

theorem restsAt_of_takesFrom (h : f.TakesFrom x l m) (hm : RestsAt f liveIn x m) :
    RestsAt f liveIn x l := by
  have htake := found_takesFrom hlive hx h
  rw [RestsAt, ← eventually_succ]
  filter_upwards [htake, eventually_succ.mpr htake, hm, eventually_succ.mpr hm]
    with k hthis hnext hrest hrest'
  by_cases hback : f.GoesBack l m
  · rw [hnext.1 hback, hthis.1 hback, hrest]
  · rw [hnext.2 hback, hthis.2 hback, hrest']

theorem restsAt_of_chain (h : Relation.ReflTransGen (f.TakesFrom x) l m)
    (hm : RestsAt f liveIn x m) : RestsAt f liveIn x l := by
  induction h using Relation.ReflTransGen.head_induction_on with
  | refl => exact hm
  | head hstep _ ih => exact restsAt_of_takesFrom hlive hx hstep ih

/-- Along steps that do not go back a witness is found in one round. -/
theorem found_forth (h :
    Relation.ReflTransGen (fun l m => f.TakesFrom x l m ∧ ¬f.GoesBack l m) l m) :
    ∀ᶠ k in atTop, found f liveIn x (k + 1) l = found f liveIn x (k + 1) m := by
  induction h with
  | refl => exact .of_forall fun _ => rfl
  | tail _ hstep ih =>
    filter_upwards [ih, found_takesFrom hlive hx hstep.1] with k hchain htake
    rw [hchain, htake.2 hstep.2]

/-- On a way round with one step back each round finds the witness that it started from. -/
theorem restsAt_of_wayRound (h : f.TakesFrom x l m) (hback : f.GoesBack l m)
    (hforth : Relation.ReflTransGen (fun l m => f.TakesFrom x l m ∧ ¬f.GoesBack l m) m l) :
    RestsAt f liveIn x m := by
  filter_upwards [found_takesFrom hlive hx h, found_forth hlive hx hforth] with k htake hchain
  rw [hchain, htake.1 hback]

end Rest

section Ways
variable (hlive : Liveness.liveIn? f refs = some liveIn)
include hlive

/-- On a way round that goes back once the witnesses come to rest. -/
theorem restsAt_of_cycle (hx : x ∈ refs) (honce : f.BacksOnce x)
    (h : Relation.TransGen (f.TakesFrom x) l l) : RestsAt f liveIn x l := by
  have hback : ∃ l₀ m₀, f.TakesFrom x l₀ m₀ ∧ f.GoesBack l₀ m₀ ∧
      Relation.ReflTransGen (f.TakesFrom x) l l₀ ∧ Relation.ReflTransGen (f.TakesFrom x) m₀ l := by
    obtain ⟨m, hstep, hrest⟩ := Relation.TransGen.head'_iff.mp h
    by_cases hback : f.GoesBack l m
    · exact ⟨l, m, hstep, hback, .refl, hrest⟩
    · rcases first_back (B := f.GoesBack) hrest
        with hforth | ⟨l₀, m₀, hforth, htake, hback', hrest'⟩
      · exact absurd (Function.goesBack_of_forth hforth) hback
      · exact ⟨l₀, m₀, htake, hback', .head hstep (reflTransGen_of_forth hforth), hrest'⟩
  obtain ⟨l₀, m₀, htake, hback, hto, hfrom⟩ := hback
  -- The first step back after that one is the same step again.
  have hforth : Relation.ReflTransGen (fun l m => f.TakesFrom x l m ∧ ¬f.GoesBack l m) m₀ l₀ := by
    rcases first_back (B := f.GoesBack) (hfrom.trans hto)
      with hforth | ⟨l₁, m₁, hforth, htake', hback', hrest⟩
    · exact hforth
    · obtain rfl := honce l₀ m₀ l₁ m₁ htake hback htake' hback' (reflTransGen_of_forth hforth) hrest
      exact hforth
  exact restsAt_of_chain hlive hx (hto.tail htake) (restsAt_of_wayRound hlive hx htake hback hforth)

theorem restsAt_of_read (hx : x ∈ refs) (hb : f.blocks.get? l = some b)
    (hused : f.UsedAhead x ⟨l, 0⟩) {n : Nat} (hread : b.firstRead? x 0 = some n) :
    RestsAt f liveIn x l := by
  have hfound : ∀ k, found f liveIn x (k + 1) l = some (b.siteAt f.name n) := by
    intro k
    obtain ⟨t, hfound, -⟩ := found_succ hlive hx hb hused k
    rw [hfound, from?, hread]
    rfl
  exact eventually_succ.mp (.of_forall fun k => by rw [hfound, hfound])

/-- If no way round goes back more than once, the witness of a reference comes to rest on entry to
each block. -/
theorem restsAt_of_backsOnce (hx : x ∈ refs) (honce : f.BacksOnce x)
    (l : {l // l ∈ f.blocks.names}) : RestsAt f liveIn x l := by
  -- The induction follows the witness from block to block until it is read or goes round.
  induction l using (f.upstream_wellFounded x).induction with
  | _ l ih =>
    by_cases hused : f.UsedAhead x ⟨l, 0⟩
    · obtain ⟨b, hb⟩ := hused.exists_block
      rcases hused.cases_entry hb with ⟨n, hread⟩ | ⟨m, htake⟩
      · exact restsAt_of_read hlive hx hb hused hread
      · by_cases hcycle : Relation.TransGen (f.TakesFrom x) l l
        · exact restsAt_of_cycle hlive hx honce hcycle
        · exact restsAt_of_takesFrom hlive hx htake
            (ih ⟨m, htake.mem_names⟩ ⟨.single htake, hcycle⟩)
    · exact .of_forall fun k => by rw [found_eq_none hlive hused, found_eq_none hlive hused]

end Ways

def Rests (f : Function) (liveIn : NameMap Names) : Prop :=
  ∃ n, (round f liveIn)^[n + 1] (start f) = (round f liveIn)^[n] (start f)

section Rounds
variable (hlive : Liveness.liveIn? f refs = some liveIn)
include hlive

theorem within_iterate (k : Nat) :
    Within f.blocks.names refs.toList ((Regions.sitesOf f refs).toList.flatMap Prod.snd)
      ((round f liveIn)^[k] (start f)) := by
  refine ⟨fun l => mem_iterate_round k, fun l x site hsite => ?_⟩
  obtain ⟨hx, m, b, n, hb, hread, rfl, -⟩ := genuine_iterate hlive k l x site hsite
  exact ⟨ExtTreeSet.mem_toList.mpr hx,
    Regions.mem_sitesOf hx (Function.siteAt_mem_useSites hb hread)⟩

theorem rests_of_backsOnce (honce : ∀ x ∈ refs, f.BacksOnce x) : Rests f liveIn := by
  have hall : ∀ᶠ k in atTop, ∀ l ∈ {l | l ∈ f.blocks.names}, ∀ x ∈ {x | x ∈ refs.toList},
      found f liveIn x (k + 1) l = found f liveIn x k l := by
    refine (eventually_all_finite (List.finite_toSet f.blocks.names)).mpr fun l hl => ?_
    refine (eventually_all_finite (List.finite_toSet refs.toList)).mpr fun x hx => ?_
    have hx := ExtTreeSet.mem_toList.mp hx
    exact restsAt_of_backsOnce hlive hx (honce x hx) ⟨l, hl⟩
  obtain ⟨k, hk⟩ := hall.exists
  exact ⟨k, (within_iterate hlive (k + 1)).ext (within_iterate hlive k) hk⟩

/-- The rounds are tried often enough. -/
theorem exists_table?_iff :
    (∃ t, table? f refs liveIn ((Regions.sitesOf f refs).toList.flatMap Prod.snd).length = some t) ↔
      Rests f liveIn := by
  constructor
  · rintro ⟨t, ht⟩
    exact ⟨_, (settled?_eq_some.mp ht).1⟩
  · refine exists_settled?
      (fun i j => (within_iterate hlive i).eq_of_cells (within_iterate hlive j)) (Nat.le_of_eq ?_)
    rw [Fintype.card_fun, Fintype.card_option, Fintype.card_prod, Fintype.card_fin,
      Fintype.card_fin, Fintype.card_fin, ExtTreeSet.length_toList, Registry.names, List.length_map]
    rfl

end Rounds

end Witness

namespace Regions
variable {f : Function} {types : TypeTable} {refs : Names} {liveIn : NameMap Names}

theorem compute_ends (hrefs : f.refs types = .ok refs) (htargets : f.TargetsExist)
    (hlive : Liveness.liveIn? f refs = some liveIn) (policy : RegionPolicy) :
    (Witness.Rests f liveIn → ∃ r, compute f types policy = .ok r) ∧
      (¬Witness.Rests f liveIn → compute f types policy = .error .endless) := by
  rw [← Witness.exists_table?_iff hlive]
  obtain ⟨live, hsets, rfl⟩ := Option.map_eq_some_iff.mp hlive
  rw [compute_of_live hrefs htargets hsets, Liveness.onEntries]
  cases Witness.table? f refs _ ((sitesOf f refs).toList.flatMap Prod.snd).length with
  | some t => exact ⟨fun _ => ⟨_, rfl⟩, fun hnot => absurd ⟨t, rfl⟩ hnot⟩
  | none =>
    refine ⟨fun h => ?_, fun _ => rfl⟩
    obtain ⟨t, ht⟩ := h
    cases ht

end Regions

namespace Checker
variable {k : Checker} {f : Function}

theorem checkFunction_endless (hf : WellFormed.checkFunction f k.types (k.signaturesFor f) = .ok ())
    (h : Regions.compute f k.types k.policy = .error .endless) :
    k.checkFunction f = .error .endless := by
  obtain ⟨entry, rest, horder, -⟩ :=
    Function.reversePostorder_spec (WellFormed.checkFunction_inv hf)
  have hanalyze : k.analyze f = .error .endless := by
    rw [analyze]
    exact (Except.bind_of_ok hf).trans ((Except.bind_of_ok horder).trans (Except.bind_of_error h))
  rw [checkFunction, hanalyze]
  rfl

/-- If the rounds that look for next uses come to rest there are regions, and a well-formed function
is reported on. If they do not, this is told, and nothing else. They come to rest if on each way
round, on which blocks take over the witness of a reference from one another, at most one step goes
back in the block table. -/
theorem ends_if_witnesses_rest (htypes : ∀ b ∈ f.bindings.entries, k.types.Defines b.type)
    (htargets : f.TargetsExist) :
    ∃ refs liveIn, f.refs k.types = .ok refs ∧ Liveness.liveIn? f refs = some liveIn ∧
      (Witness.Rests f liveIn → (∀ policy, ∃ r, Regions.compute f k.types policy = .ok r) ∧
        (WellFormed.checkFunction f k.types (k.signaturesFor f) = .ok () → k.TypesGrounded f →
          ∃ report, k.checkFunction f = .ok report)) ∧
      (¬Witness.Rests f liveIn → (∀ policy, Regions.compute f k.types policy = .error .endless) ∧
        (WellFormed.checkFunction f k.types (k.signaturesFor f) = .ok () →
          k.checkFunction f = .error .endless)) ∧
      ((∀ x, f.IsRef k.types x → f.BacksOnce x) → Witness.Rests f liveIn) := by
  obtain ⟨refs, hrefs⟩ := Function.refs_total htypes
  obtain ⟨liveIn, hlive⟩ := Liveness.exists_liveIn f refs
  have hends := Regions.compute_ends hrefs htargets hlive
  refine ⟨refs, liveIn, hrefs, hlive, fun hrests => ?_, fun hrests => ?_, fun honce => ?_⟩
  · refine ⟨fun policy => (hends policy).1 hrests, fun hf ht => ?_⟩
    obtain ⟨r, hr⟩ := (hends k.policy).1 hrests
    obtain ⟨a, ds, -, -, hreport⟩ := exists_report hf hr ht
    exact ⟨_, hreport⟩
  · exact ⟨fun policy => (hends policy).2 hrests,
      fun hf => checkFunction_endless hf ((hends k.policy).2 hrests)⟩
  · exact Witness.rests_of_backsOnce hlive fun x hx => honce x ((Function.mem_refs hrefs).mp hx)

end Checker

namespace Function

def handingLoop : Function :=
  { ofParts "handingLoop" [{ name := "x", type := 1 }, { name := "p", type := 2 }]
      [{ label := "entry", body := [{ op := .init "x" none }, { op := .borrow "x" .shared "p" }],
         ending := some { terminator := .jump "first" } },
       { label := "first", ending := some { terminator := .branch "second" "left" none } },
       { label := "second", ending := some { terminator := .branch "third" "right" none } },
       { label := "third", ending := some { terminator := .jump "first" } },
       { label := "left", body := [{ op := .use "p" }],
         ending := some { terminator := .ret none } },
       { label := "right", body := [{ op := .use "p" }],
         ending := some { terminator := .ret none } }] with
    entry := some "entry" }

/-- The same with the blocks of the loop in the opposite order: two steps of the way round go back
in the table. -/
def handingLoopReordered : Function :=
  { ofParts "handingLoop" [{ name := "x", type := 1 }, { name := "p", type := 2 }]
      [{ label := "entry", body := [{ op := .init "x" none }, { op := .borrow "x" .shared "p" }],
         ending := some { terminator := .jump "first" } },
       { label := "third", ending := some { terminator := .jump "first" } },
       { label := "second", ending := some { terminator := .branch "third" "right" none } },
       { label := "first", ending := some { terminator := .branch "second" "left" none } },
       { label := "left", body := [{ op := .use "p" }],
         ending := some { terminator := .ret none } },
       { label := "right", body := [{ op := .use "p" }],
         ending := some { terminator := .ret none } }] with
    entry := some "entry" }

/-- One edge of the loop goes back in the table. -/
theorem backsOnce_handingLoop (x : String) : handingLoop.BacksOnce x := by
  have hedge : ∀ l m, handingLoop.TakesFrom x l m → handingLoop.GoesBack l m → l = "third" := by
    intro l m htake hback
    obtain ⟨b, hb, hm⟩ := htake.edge
    obtain rfl : b.label = l := Registry.name_of_get?_eq_some hb
    have hall : ∀ b ∈ handingLoop.blocks.entries, ∀ m ∈ b.successors,
        handingLoop.blocks.names.idxOf m ≤ handingLoop.blocks.names.idxOf b.label →
        b.label = "third" := by decide
    exact hall b (Registry.mem_of_get?_eq_some hb) m hm hback
  intro l m l' m' htake hback htake' hback' _ _
  rw [hedge l m htake hback, hedge l' m' htake' hback']

end Function

namespace Checker

/-- The loop is reported on, though its blocks take the witness round. -/
theorem ends_handingLoop :
    (∀ b ∈ Function.handingLoop.bindings.entries, basic.types.Defines b.type) ∧
    Function.handingLoop.TargetsExist ∧
    (∀ x, Function.handingLoop.IsRef basic.types x → Function.handingLoop.BacksOnce x) ∧
    (∀ policy, ∃ r, Regions.compute .handingLoop basic.types policy = .ok r) ∧
    ∃ report, basic.checkFunction .handingLoop = .ok report := by
  have hgrounded : basic.TypesGrounded .handingLoop := typesGrounded_basic (by decide) ⟨rfl, rfl⟩
  have hdefined : ∀ b ∈ Function.handingLoop.bindings.entries, basic.types.Defines b.type :=
    fun b hb => (hgrounded.bindings b hb).defines
  have htargets : Function.handingLoop.TargetsExist := Function.targetsExist_iff.mpr (by decide)
  have hf : WellFormed.checkFunction .handingLoop basic.types (basic.signaturesFor .handingLoop) =
      .ok () := by decide
  have honce : ∀ x, Function.handingLoop.IsRef basic.types x → Function.handingLoop.BacksOnce x :=
    fun x _ => Function.backsOnce_handingLoop x
  obtain ⟨refs, liveIn, -, -, hends, -, hrests⟩ := ends_if_witnesses_rest hdefined htargets
  obtain ⟨hcompute, hreport⟩ := hends (hrests honce)
  exact ⟨hdefined, htargets, honce, hcompute, hreport hf hgrounded⟩

/-- In the opposite order two witnesses follow one another through the loop for ever, and the
function, though well formed, is not reported on. -/
theorem handingLoopReordered_endless : Function.handingLoop.Reorders .handingLoopReordered ∧
    Function.handingLoopReordered.TargetsExist ∧
    WellFormed.checkFunction .handingLoopReordered basic.types
      (basic.signaturesFor .handingLoopReordered) = .ok () ∧
    (∃ refs liveIn, Function.handingLoopReordered.refs basic.types = .ok refs ∧
      Liveness.liveIn? .handingLoopReordered refs = some liveIn ∧
      ¬Witness.Rests .handingLoopReordered liveIn) ∧
    (∀ policy, Regions.compute .handingLoopReordered basic.types policy = .error .endless) ∧
    basic.checkFunction .handingLoopReordered = .error .endless := by
  have htargets : Function.handingLoopReordered.TargetsExist :=
    Function.targetsExist_iff.mpr (by decide)
  have hf : WellFormed.checkFunction .handingLoopReordered basic.types
      (basic.signaturesFor .handingLoopReordered) = .ok () := by
    decide
  have hrun : (do
      let refs ← Function.handingLoopReordered.refs basic.types
      return (Liveness.liveIn? .handingLoopReordered refs).any fun liveIn =>
        let tables (n : Nat) :=
          (Witness.round .handingLoopReordered liveIn)^[n] (Witness.start .handingLoopReordered)
        tables 2 ≠ tables 1 ∧ tables 1 = tables 3 :
      Except Fault Bool) = .ok true := by decide +kernel
  obtain ⟨refs, hrefs, hrun⟩ := Except.bind_inv hrun
  obtain ⟨liveIn, hlive, hrun⟩ := (Option.any_eq_true _ _).mp (Except.ok.inj hrun)
  obtain ⟨hmoves, hreturns⟩ := of_decide_eq_true hrun
  have hnever : ¬Witness.Rests .handingLoopReordered liveIn := fun h => by
    obtain ⟨n, hn⟩ := h
    exact iterate_ne hn hmoves (by decide) hreturns
  have hends := fun policy => (Regions.compute_ends hrefs htargets hlive policy).2 hnever
  exact ⟨⟨rfl, rfl, by decide, by decide, by decide⟩, htargets, hf,
    ⟨refs, liveIn, hrefs, hlive, hnever⟩, hends, checkFunction_endless hf (hends _)⟩

end Checker
end Ownership

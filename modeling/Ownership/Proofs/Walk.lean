import Mathlib.Logic.Relation
import Ownership.Check.Order
import Ownership.Proofs.WellFormed

/-! # Reachable blocks

The walk that orders the blocks ends, and meets exactly the blocks that control can reach from the
entry. It goes round by round over a stack of open blocks, and comes to what a recursion over the
blocks comes to: a walk from a block opens blocks it has not met, and when it leaves one, every
successor of what it has met since is met too.
-/
namespace Ownership
open Std

namespace Names
variable {s t : Names}

theorem nodup_toList (s : Names) : s.toList.Nodup := by
  refine s.distinct_toList.imp ?_
  rintro a _ hne rfl
  exact hne compare_self

theorem size_le_length {l : List String} (h : ∀ x ∈ s, x ∈ l) : s.size ≤ l.length := by
  rw [← ExtTreeSet.length_toList]
  exact (nodup_toList s).length_le_of_subset fun x hx => h x (ExtTreeSet.mem_toList.mp hx)

theorem size_le_size (h : ∀ x ∈ s, x ∈ t) : s.size ≤ t.size := by
  rw [← ExtTreeSet.length_toList (t := t)]
  exact size_le_length fun x hx => ExtTreeSet.mem_toList.mpr (h x hx)

theorem size_insert_of_not_mem {x : String} (h : x ∉ s) : (s.insert x).size = s.size + 1 := by
  rw [ExtTreeSet.size_insert, if_neg]
  rwa [ExtTreeSet.contains_iff_mem]

theorem size_erase_add_one {x : String} (h : x ∈ s) : (s.erase x).size + 1 = s.size := by
  have hpos : s.size ≠ 0 := fun h0 =>
    ExtTreeSet.not_mem_empty (ExtTreeSet.eq_empty_iff_size_eq_zero.mpr h0 ▸ h)
  rw [ExtTreeSet.size_erase, if_pos (ExtTreeSet.contains_iff_mem.mpr h)]
  omega

theorem contains_eq_false {x : String} : s.contains x = false ↔ x ∉ s := by
  rw [← Bool.not_eq_true, ExtTreeSet.contains_iff_mem]

end Names

namespace Function

def Edge (f : Function) (l m : String) : Prop := ∃ b, f.blocks.get? l = some b ∧ m ∈ b.successors

def Reachable (f : Function) (l : String) : Prop :=
  ∃ entry, f.entryLabel = some entry ∧ Relation.ReflTransGen f.Edge entry l

variable {f : Function} {types : TypeTable} {signatures : Registry Signature}

def TargetsExist (f : Function) : Prop := ∀ l m, f.Edge l m → f.blocks.contains m = true

theorem targetsExist_iff : f.TargetsExist ↔ ∀ b ∈ f.blocks.entries, ∀ m ∈ b.successors,
    f.blocks.contains m = true := by
  refine ⟨fun h b hb m hm => h b.label m ⟨b, Registry.get?_eq_some_of_mem hb, hm⟩, ?_⟩
  rintro h l m ⟨b, hb, hm⟩
  exact h b (Registry.mem_of_get?_eq_some hb) m hm

theorem TargetsExist.steps (h : f.TargetsExist) {l m : String} (hl : f.blocks.contains l = true)
    (hm : Relation.ReflTransGen f.Edge l m) : f.blocks.contains m = true := by
  cases hm with
  | refl => exact hl
  | tail _ hm => exact h _ _ hm

theorem Fits.edge (hf : f.Fits types signatures) {l m : String} (h : f.Edge l m) :
    f.blocks.contains m = true := by
  obtain ⟨b, hb, hm⟩ := h
  exact Registry.contains_iff_get?.mpr (hf.successor hb hm)

theorem Fits.targetsExist (hf : f.Fits types signatures) : f.TargetsExist := fun _ _ => hf.edge

theorem Fits.reachable (hf : f.Fits types signatures) {l : String} (h : f.Reachable l) :
    ∃ b, f.blocks.get? l = some b := by
  obtain ⟨entry, he, h⟩ := h
  obtain ⟨_, b, he', hb⟩ := hf.entry
  cases he.symm.trans he'
  exact Registry.contains_iff_get?.mp
    (hf.targetsExist.steps (Registry.contains_iff_get?.mpr ⟨b, hb⟩) h)

theorem Reachable.step {l m : String} (hl : f.Reachable l) (h : f.Edge l m) : f.Reachable m := by
  obtain ⟨entry, he, hl⟩ := hl
  exact ⟨entry, he, hl.tail h⟩

theorem successors_iff {l : String} {ms : List String} :
    f.successors l = .ok ms ↔ ∃ b, f.blocks.get? l = some b ∧ ms = b.successors := by
  rw [successors]
  constructor
  · intro h
    obtain ⟨b, hb, h⟩ := Except.bind_inv h
    cases h
    exact ⟨b, block_iff.mp hb, rfl⟩
  · rintro ⟨b, hb, rfl⟩
    exact Except.bind_of_ok (block_iff.mpr hb)

@[simp] theorem Walk.seen_meet (w : Walk) (l : String) : (w.meet l).seen = w.seen.insert l := rfl

@[simp] theorem Walk.order_meet (w : Walk) (l : String) : (w.meet l).order = w.order := rfl

@[simp] theorem Walk.seen_leave (w : Walk) (l : String) : (w.leave l).seen = w.seen := rfl

@[simp] theorem Walk.order_leave (w : Walk) (l : String) : (w.leave l).order = l :: w.order := rfl

/-- The walk as a recursion. At most `n` blocks are open at a time. -/
def walkFrom (f : Function) : Nat → Walk → String → Except Fault Walk
  | 0, _, _ => .error .endless
  | n + 1, w, l =>
    if w.seen.contains l then .ok w
    else do
      let targets ← f.successors l
      let w ← targets.foldlM (f.walkFrom n) (w.meet l)
      return w.leave l

theorem successors_of_missing {l : String} (h : f.blocks.get? l = none) :
    f.successors l = .error (.missing (.name l)) := by
  simp [successors, block, h, bind, Except.bind]

/-- What a walk from some blocks adds: blocks reached from them, whose successors are all met. The
blocks it leaves go in front of those left before. -/
structure Walk.Grows (f : Function) (origins : List String) (w w' : Walk) : Prop where
  seen : ∀ x ∈ w.seen, x ∈ w'.seen
  there : ∀ x ∈ w'.seen, x ∉ w.seen → f.blocks.contains x = true
  met : ∀ x ∈ origins, x ∈ w'.seen
  found : ∀ x ∈ w'.seen, x ∉ w.seen → ∃ o ∈ origins, Relation.ReflTransGen f.Edge o x
  closed : ∀ x ∈ w'.seen, x ∉ w.seen → ∀ m, f.Edge x m → m ∈ w'.seen
  order : ∃ new, w'.order = new ++ w.order ∧ new.Nodup ∧ ∀ x, x ∈ new ↔ x ∈ w'.seen ∧ x ∉ w.seen

namespace Walk.Grows
variable {w w' w'' : Walk} {l : String} {ls : List String}

theorem refl (h : ∀ x ∈ ls, x ∈ w.seen) : Grows f ls w w where
  seen _ hx := hx
  there _ hx hn := absurd hx hn
  met := h
  found _ hx hn := absurd hx hn
  closed _ hx hn := absurd hx hn
  order := ⟨[], rfl, .nil, fun x => by simp⟩

theorem cons (h : Grows f [l] w w') (h' : Grows f ls w' w'') : Grows f (l :: ls) w w'' where
  seen x hx := h'.seen x (h.seen x hx)
  there x hx hn := by
    by_cases hx' : x ∈ w'.seen
    · exact h.there x hx' hn
    · exact h'.there x hx hx'
  met := List.forall_mem_cons.mpr ⟨h'.seen l (h.met l (by simp)), h'.met⟩
  found x hx hn := by
    by_cases hx' : x ∈ w'.seen
    · obtain ⟨o, ho, hr⟩ := h.found x hx' hn
      exact ⟨o, List.mem_cons.mpr (Or.inl (List.mem_singleton.mp ho)), hr⟩
    · obtain ⟨o, ho, hr⟩ := h'.found x hx hx'
      exact ⟨o, List.mem_cons_of_mem _ ho, hr⟩
  closed x hx hn m hm := by
    by_cases hx' : x ∈ w'.seen
    · exact h'.seen m (h.closed x hx' hn m hm)
    · exact h'.closed x hx hx' m hm
  order := by
    obtain ⟨new, ho, hnd, hnew⟩ := h.order
    obtain ⟨new', ho', hnd', hnew'⟩ := h'.order
    refine ⟨new' ++ new, by rw [ho', ho, List.append_assoc], ?_, fun x => ?_⟩
    · refine List.nodup_append.mpr ⟨hnd', hnd, ?_⟩
      rintro x hx _ hy rfl
      exact ((hnew' x).mp hx).2 ((hnew x).mp hy).1
    · have hmono := h.seen x
      have hmono' := h'.seen x
      rw [List.mem_append, hnew, hnew']
      by_cases x ∈ w.seen <;> by_cases x ∈ w'.seen <;> simp_all

/-- Opening a block and walking through its successors. -/
theorem opened {b : Block} (hb : f.blocks.get? l = some b) (hl : l ∉ w.seen)
    (h : Grows f b.successors (w.meet l) w') : Grows f [l] w (w'.leave l) where
  seen x hx := h.seen x (by simp [hx])
  there x hx hn := by
    by_cases hxl : l = x
    · exact hxl ▸ Registry.contains_iff_get?.mpr ⟨b, hb⟩
    · exact h.there x hx (by simp [hxl, hn])
  met := by
    have hl' := h.seen l (by simp)
    simpa using hl'
  found x hx hn := by
    refine ⟨l, by simp, ?_⟩
    by_cases hxl : l = x
    · exact hxl ▸ .refl
    · obtain ⟨o, ho, hr⟩ := h.found x hx (by simp [hxl, hn])
      exact hr.head ⟨b, hb, ho⟩
  closed x hx hn m hm := by
    by_cases hxl : l = x
    · obtain ⟨b', hb', hm⟩ := hm
      rw [← hxl, hb] at hb'
      cases hb'
      exact h.met m hm
    · exact h.closed x hx (by simp [hxl, hn]) m hm
  order := by
    obtain ⟨new, ho, hnd, hnew⟩ := h.order
    have hseen := h.seen l (by simp)
    refine ⟨l :: new, by simp [ho], ?_, fun x => ?_⟩
    · exact List.nodup_cons.mpr ⟨fun hmem => ((hnew l).mp hmem).2 (by simp), hnd⟩
    · rw [List.mem_cons, hnew]
      by_cases hxl : l = x
      · subst hxl; simp [hseen, hl]
      · simp [hxl, Ne.symm hxl]

end Walk.Grows

/-- A walk leaves a block alone that it has met; else it opens the block, walks from its successors,
and leaves it. -/
theorem walkFrom_succ_iff {n : Nat} {w w' : Walk} {l : String} : f.walkFrom (n + 1) w l = .ok w' ↔
    (l ∈ w.seen ∧ w' = w) ∨ (l ∉ w.seen ∧ ∃ b v, f.blocks.get? l = some b ∧
      b.successors.foldlM (f.walkFrom n) (w.meet l) = .ok v ∧ w' = v.leave l) := by
  rw [walkFrom]
  by_cases hseen : l ∈ w.seen
  · simp only [ExtTreeSet.contains_iff_mem.mpr hseen, ↓reduceIte, hseen, true_and,
      not_true_eq_false, false_and, or_false, Except.ok.injEq]
    exact eq_comm
  · simp only [Names.contains_eq_false.mpr hseen, Bool.false_eq_true, ↓reduceIte, hseen, false_and,
      not_false_eq_true, true_and, false_or]
    constructor
    · intro h
      obtain ⟨ms, hms, h⟩ := Except.bind_inv h
      obtain ⟨b, hb, rfl⟩ := successors_iff.mp hms
      obtain ⟨v, hv, h⟩ := Except.bind_inv h
      cases h
      exact ⟨b, v, hb, hv, rfl⟩
    · rintro ⟨b, v, hb, hv, rfl⟩
      exact (Except.bind_of_ok (successors_iff.mpr ⟨b, hb, rfl⟩)).trans (Except.bind_of_ok hv)

theorem foldlM_walkFrom_grows {n : Nat}
    (hwalk : ∀ (w w' : Walk) (l : String), f.walkFrom n w l = .ok w' → Walk.Grows f [l] w w')
    {ls : List String} {w w' : Walk} (h : ls.foldlM (f.walkFrom n) w = .ok w') :
    Walk.Grows f ls w w' := by
  induction ls generalizing w with
  | nil =>
    cases h
    exact .refl (by simp)
  | cons l ls ih =>
    rw [List.foldlM_cons] at h
    obtain ⟨v, hv, h⟩ := Except.bind_inv h
    exact (hwalk w v l hv).cons (ih h)

theorem walkFrom_grows {n : Nat} {w w' : Walk} {l : String} (h : f.walkFrom n w l = .ok w') :
    Walk.Grows f [l] w w' := by
  induction n generalizing w w' l with
  | zero => cases h
  | succ n ih =>
    obtain ⟨hseen, rfl⟩ | ⟨hnew, b, v, hb, hv, rfl⟩ := walkFrom_succ_iff.mp h
    · exact .refl (by simpa using hseen)
    · exact .opened hb hnew (foldlM_walkFrom_grows (fun _ _ _ => ih) hv)

/-- A walk meets no end only where it comes to a block that is not there. -/
theorem foldlM_walkFrom_ends {n : Nat}
    (hwalk : ∀ (w : Walk) (l : String), (∀ x ∈ w.seen, f.blocks.contains x = true) →
      f.blocks.size < n + w.seen.size → (∃ w', f.walkFrom n w l = .ok w') ∨
        ∃ m, f.blocks.contains m = false ∧ Relation.ReflTransGen f.Edge l m ∧
          f.walkFrom n w l = .error (.missing (.name m)))
    (ls : List String) (w : Walk) (hw : ∀ x ∈ w.seen, f.blocks.contains x = true)
    (hn : f.blocks.size < n + w.seen.size) :
    (∃ w', ls.foldlM (f.walkFrom n) w = .ok w') ∨ ∃ l ∈ ls, ∃ m, f.blocks.contains m = false ∧
      Relation.ReflTransGen f.Edge l m ∧
      ls.foldlM (f.walkFrom n) w = .error (.missing (.name m)) := by
  induction ls generalizing w with
  | nil => exact Or.inl ⟨w, rfl⟩
  | cons l ls ih =>
    rw [List.foldlM_cons]
    rcases hwalk w l hw hn with ⟨w', hrun⟩ | ⟨m, hm, hsteps, hrun⟩
    · have hgrows := walkFrom_grows hrun
      have hsize := Names.size_le_size hgrows.seen
      have hw' : ∀ x ∈ w'.seen, f.blocks.contains x = true := by
        intro x hx
        by_cases hx' : x ∈ w.seen
        · exact hw x hx'
        · exact hgrows.there x hx hx'
      rw [Except.bind_of_ok hrun]
      exact (ih w' hw' (by omega)).imp_right fun ⟨o, ho, hrest⟩ =>
        ⟨o, List.mem_cons_of_mem l ho, hrest⟩
    · exact Or.inr ⟨l, List.mem_cons_self, m, hm, hsteps, by rw [hrun]; rfl⟩

theorem walkFrom_ends (n : Nat) (w : Walk) (l : String)
    (hw : ∀ x ∈ w.seen, f.blocks.contains x = true) (hn : f.blocks.size < n + w.seen.size) :
    (∃ w', f.walkFrom n w l = .ok w') ∨ ∃ m, f.blocks.contains m = false ∧
      Relation.ReflTransGen f.Edge l m ∧ f.walkFrom n w l = .error (.missing (.name m)) := by
  induction n generalizing w l with
  | zero =>
    -- Every block seen is one of the function, so the bound has not been used up.
    have hsize : w.seen.size ≤ f.blocks.names.length :=
      Names.size_le_length fun x hx => Registry.contains_iff_mem_names.mp (hw x hx)
    rw [Registry.names, List.length_map] at hsize
    rw [Registry.size] at hn
    omega
  | succ n ih =>
    by_cases hseen : l ∈ w.seen
    · exact Or.inl ⟨w, walkFrom_succ_iff.mpr (Or.inl ⟨hseen, rfl⟩)⟩
    rw [walkFrom, if_neg (by simpa using hseen)]
    cases hb : f.blocks.get? l with
    | none =>
      refine Or.inr ⟨l, by rw [← Registry.isSome_get?, hb, Option.isSome_none], .refl, ?_⟩
      rw [successors_of_missing hb]
      rfl
    | some b =>
      have hsize := Names.size_insert_of_not_mem hseen
      have hw' : ∀ x ∈ (w.meet l).seen, f.blocks.contains x = true := by
        intro x hx
        rcases ExtTreeSet.mem_insert.mp hx with hx | hx
        · exact (LawfulEqOrd.eq_of_compare hx) ▸ Registry.contains_iff_get?.mpr ⟨b, hb⟩
        · exact hw x hx
      rw [Except.bind_of_ok (successors_iff.mpr ⟨b, hb, rfl⟩)]
      have hn' : f.blocks.size < n + (w.meet l).seen.size := by
        rw [Walk.seen_meet, hsize]
        omega
      rcases foldlM_walkFrom_ends ih b.successors (w.meet l) hw' hn' with
        ⟨v, hv⟩ | ⟨o, ho, m, hm, hsteps, hv⟩
      · exact Or.inl ⟨v.leave l, by rw [Except.bind_of_ok hv]; rfl⟩
      · exact Or.inr ⟨m, hm, hsteps.head ⟨b, hb, ho⟩, by rw [hv]; rfl⟩

theorem walkFrom_start_ends (f : Function) (entry : String) :
    (∃ w, f.walkFrom (f.blocks.size + 1) {} entry = .ok w) ∨
      ∃ m, f.blocks.contains m = false ∧ Relation.ReflTransGen f.Edge entry m ∧
        f.walkFrom (f.blocks.size + 1) {} entry = .error (.missing (.name m)) :=
  walkFrom_ends _ _ _ (fun _ hx => absurd hx ExtTreeSet.not_mem_empty)
    (Nat.lt_of_lt_of_le (Nat.lt_succ_self _) (Nat.le_add_right _ _))

/-- The block from which a walk starts is the last to be left. -/
theorem order_of_walkFrom {n : Nat} {w w' : Walk} {l : String} (hl : l ∉ w.seen)
    (h : f.walkFrom n w l = .ok w') : ∃ rest, w'.order = l :: rest := by
  cases n with
  | zero => cases h
  | succ n =>
    obtain ⟨hseen, -⟩ | ⟨-, b, v, -, -, rfl⟩ := walkFrom_succ_iff.mp h
    · exact absurd hseen hl
    · exact ⟨v.order, rfl⟩

section Rounds
variable {n i : Nat} {w : Walk} {l m : String} {ms : List String} {stack : List (String × Nat)}

theorem walk_missing {e : Fault} (h : f.successors l = .error e) :
    f.walk (n + 1) ((l, i) :: stack) w = .error e := by
  rw [walk, h]
  rfl

theorem walk_left (hms : f.successors l = .ok ms) (hi : ms[i]? = none) :
    f.walk (n + 1) ((l, i) :: stack) w = f.walk n stack (w.leave l) := by
  rw [walk, Except.bind_of_ok hms]
  simp only [hi]

theorem walk_met (hms : f.successors l = .ok ms) (hi : ms[i]? = some m) (hm : m ∈ w.seen) :
    f.walk (n + 1) ((l, i) :: stack) w = f.walk n ((l, i + 1) :: stack) w := by
  rw [walk, Except.bind_of_ok hms]
  simp only [hi, ExtTreeSet.contains_iff_mem.mpr hm, ↓reduceIte]

theorem walk_unmet (hms : f.successors l = .ok ms) (hi : ms[i]? = some m) (hm : m ∉ w.seen) :
    f.walk (n + 1) ((l, i) :: stack) w = f.walk n ((m, 0) :: (l, i + 1) :: stack) (w.meet m) := by
  rw [walk, Except.bind_of_ok hms]
  simp only [hi, Names.contains_eq_false.mpr hm, Bool.false_eq_true, ↓reduceIte]

def Walk.pending (f : Function) (w : Walk) : Nat :=
  ((f.blocks.entries.filter fun b => !w.seen.contains b.label).flatMap fun b =>
    b.label :: b.successors).length

theorem Walk.pending_meet {b : Block} (hb : f.blocks.get? l = some b) (hl : l ∉ w.seen) :
    (w.meet l).pending f + (b.successors.length + 1) = w.pending f := by
  obtain rfl : b.label = l := Registry.name_of_get?_eq_some hb
  obtain ⟨before, after, hsplit⟩ := List.append_of_mem (Registry.mem_of_get?_eq_some hb)
  have hdistinct : (f.blocks.entries.map Block.label).Nodup := f.blocks.distinct
  rw [hsplit, List.map_append, List.map_cons, List.nodup_append, List.nodup_cons] at hdistinct
  obtain ⟨-, ⟨hafter, -⟩, hbefore⟩ := hdistinct
  -- Only the block that is met changes sides.
  have hsame : ∀ c : Block, c.label ≠ b.label →
      (w.meet b.label).seen.contains c.label = w.seen.contains c.label := by
    intro c hc
    rw [Bool.eq_iff_iff]
    simp [hc.symm]
  have hfilter : ∀ cs : List Block, (∀ c ∈ cs, c.label ≠ b.label) →
      cs.filter (fun c => !(w.meet b.label).seen.contains c.label) =
        cs.filter fun c => !w.seen.contains c.label :=
    fun cs hcs => List.filter_congr fun c hc => by rw [hsame c (hcs c hc)]
  rw [pending, pending, hsplit, List.filter_append, List.filter_append, List.filter_cons,
    List.filter_cons,
    hfilter before fun c hc heq => hbefore _ (List.mem_map_of_mem hc) _ List.mem_cons_self heq,
    hfilter after fun c hc heq => hafter (heq ▸ List.mem_map_of_mem hc)]
  have hout : w.seen.contains b.label = false := Names.contains_eq_false.mpr hl
  have hin : (w.meet b.label).seen.contains b.label = true := by simp
  simp only [hout, hin, Bool.not_true, Bool.not_false, Bool.false_eq_true, ↓reduceIte,
    List.flatMap_append, List.flatMap_cons, List.length_append, List.length_cons]
  omega

/-- The rounds come from one stack to another with what a part of the walk comes to, or fail as it
does. They and the blocks then left to meet stay within the budget. -/
def Carries (f : Function) (stack rest : List (String × Nat)) (w : Walk) (budget : Nat) :
    Except Fault Walk → Prop
  | .ok w' => ∃ k, k + w'.pending f = budget ∧ ∀ n, f.walk (k + n) stack w = f.walk n rest w'
  | .error e => e = .endless ∨ ∃ k ≤ budget, ∀ n, f.walk (k + 1 + n) stack w = .error e

variable {stack' rest : List (String × Nat)} {w' : Walk} {budget extra : Nat}
    {x : Except Fault Walk}

theorem Carries.done : f.Carries stack stack w (w.pending f) (.ok w) :=
  ⟨0, Nat.zero_add _, fun n => by rw [Nat.zero_add]⟩

theorem Carries.round (hround : ∀ n, f.walk (n + 1) stack w = f.walk n stack' w')
    (h : f.Carries stack' rest w' budget x) : f.Carries stack rest w (budget + 1) x := by
  cases x with
  | ok v =>
    obtain ⟨k, hk, hrun⟩ := h
    exact ⟨k + 1, by omega, fun n => by rw [Nat.add_right_comm, hround, hrun]⟩
  | error e =>
    refine h.imp_right fun ⟨k, hk, hrun⟩ => ⟨k + 1, by omega, fun n => ?_⟩
    rw [Nat.add_right_comm, hround, hrun]

theorem Carries.bind {g : Walk → Except Fault Walk} (h : f.Carries stack stack' w budget x)
    (hg : ∀ v, x = .ok v → f.Carries stack' rest v (v.pending f + extra) (g v)) :
    f.Carries stack rest w (budget + extra) (x >>= g) := by
  cases x with
  | error e => exact h.imp_right fun ⟨k, hk, hrun⟩ => ⟨k, by omega, hrun⟩
  | ok v =>
    obtain ⟨k, hk, hrun⟩ := h
    have hrest := hg v rfl
    change f.Carries stack rest w (budget + extra) (g v)
    cases hx : g v with
    | ok w' =>
      rw [hx] at hrest
      obtain ⟨k', hk', hrun'⟩ := hrest
      exact ⟨k + k', by omega, fun n => by rw [Nat.add_assoc, hrun, hrun']⟩
    | error e =>
      rw [hx] at hrest
      refine hrest.imp_right fun ⟨k', hk', hrun'⟩ => ⟨k + k', by omega, fun n => ?_⟩
      rw [Nat.add_assoc k, Nat.add_assoc k, hrun, hrun']

/-- The rounds over the successors of an open block from one of them on: those before it are
done. -/
theorem carries_successors {before after : List String}
    (hl : f.successors l = .ok (before ++ after))
    (hopen : ∀ (w : Walk) (m : String) (rest : List (String × Nat)), m ∉ w.seen →
      f.Carries ((m, 0) :: rest) rest (w.meet m) (w.pending f) (f.walkFrom n w m)) :
    f.Carries ((l, before.length) :: rest) ((l, (before ++ after).length) :: rest) w
      (w.pending f + after.length) (after.foldlM (f.walkFrom n) w) := by
  induction after generalizing before w with
  | nil =>
    rw [List.append_nil, List.foldlM_nil]
    exact .done
  | cons m after ih =>
    have hi : (before ++ m :: after)[before.length]? = some m := by simp
    have hstep : f.Carries ((l, before.length) :: rest) ((l, before.length + 1) :: rest) w
        (w.pending f + 1) (f.walkFrom n w m) := by
      by_cases hm : m ∈ w.seen
      · cases n with
        | zero => exact Or.inl rfl
        | succ n =>
          rw [walkFrom_succ_iff.mpr (Or.inl ⟨hm, rfl⟩)]
          exact .round (fun n => walk_met hl hi hm) .done
      · exact .round (fun n => walk_unmet hl hi hm) (hopen w m _ hm)
    have happend : before ++ m :: after = (before ++ [m]) ++ after := by simp
    rw [List.foldlM_cons, List.length_cons, Nat.add_comm after.length, ← Nat.add_assoc]
    refine hstep.bind fun v _ => ?_
    rw [happend] at hl ⊢
    have hrest := ih (w := v) hl
    rwa [List.length_append, List.length_singleton] at hrest

/-- The rounds from the opening of a block to its leaving do what the recursion does from that
block. -/
theorem carries_walkFrom (hl : l ∉ w.seen) :
    f.Carries ((l, 0) :: rest) rest (w.meet l) (w.pending f) (f.walkFrom n w l) := by
  induction n generalizing w l rest with
  | zero => exact Or.inl rfl
  | succ n ih =>
    rw [walkFrom, if_neg (by simpa using hl)]
    cases hb : f.blocks.get? l with
    | none =>
      have hmissing := successors_of_missing hb
      rw [hmissing]
      exact Or.inr ⟨0, Nat.zero_le _,
        fun n => by rw [Nat.zero_add, Nat.add_comm, walk_missing hmissing]⟩
    | some b =>
      have hms : f.successors l = .ok ([] ++ b.successors) := successors_iff.mpr ⟨b, hb, rfl⟩
      rw [Except.bind_of_ok hms, ← Walk.pending_meet hb hl, ← Nat.add_assoc]
      refine (carries_successors hms fun w m rest hm => ih hm).bind fun v _ => ?_
      exact .round (fun n => walk_left hms (by simp)) (.done (w := v.leave l))

/-- The rounds that the order allows are enough: they come to what the recursion comes to. -/
theorem walk_eq_walkFrom (f : Function) (entry : String) :
    f.walk f.rounds [(entry, 0)] (Walk.meet {} entry) =
      f.walkFrom (f.blocks.size + 1) {} entry := by
  have hrounds : f.rounds = Walk.pending f {} + 1 := by
    rw [rounds, Walk.pending, List.filter_eq_self.mpr fun b _ => by simp]
  have hcarries : f.Carries [(entry, 0)] [] (Walk.meet {} entry) (Walk.pending f {})
      (f.walkFrom (f.blocks.size + 1) {} entry) :=
    carries_walkFrom ExtTreeSet.not_mem_empty
  rcases f.walkFrom_start_ends entry with ⟨w, hw⟩ | ⟨m, -, -, hw⟩
  · rw [hw] at hcarries ⊢
    obtain ⟨k, hk, hrun⟩ := hcarries
    rw [hrounds, ← hk, Nat.add_assoc, hrun, walk]
  · rw [hw] at hcarries ⊢
    obtain ⟨k, hk, hrun⟩ := hcarries.resolve_left Fault.noConfusion
    rw [hrounds, show Walk.pending f {} + 1 = k + 1 + (Walk.pending f {} - k) by omega, hrun]

end Rounds

theorem reversePostorder_iff {entry : String} (he : f.entryLabel = some entry)
    {order : List String} :
    f.reversePostorder = .ok order ↔
      ∃ w, f.walkFrom (f.blocks.size + 1) {} entry = .ok w ∧ order = w.order := by
  simp only [reversePostorder, he, walk_eq_walkFrom]
  constructor
  · intro h
    obtain ⟨w, hw, h⟩ := Except.bind_inv h
    cases h
    exact ⟨w, hw, rfl⟩
  · rintro ⟨w, hw, rfl⟩
    exact Except.bind_of_ok hw

/-- The order lists the reachable blocks, each once. -/
theorem nodup_reversePostorder {order : List String} (h : f.reversePostorder = .ok order) :
    order.Nodup ∧ ∀ l, l ∈ order ↔ f.Reachable l := by
  cases he : f.entryLabel with
  | none =>
    rw [reversePostorder, he] at h
    cases h
    simp [Reachable, he]
  | some entry =>
    obtain ⟨w, hrun, rfl⟩ := (reversePostorder_iff he).mp h
    have hempty : ∀ x, x ∉ (∅ : Names) := fun x => ExtTreeSet.not_mem_empty
    have hgrows := walkFrom_grows hrun
    obtain ⟨new, hnew, hnd, hmem⟩ := hgrows.order
    rw [List.append_nil] at hnew
    rw [hnew]
    refine ⟨hnd, fun l => (hmem l).trans ⟨?_, ?_⟩⟩
    · rintro ⟨hl, hn⟩
      obtain ⟨o, ho, hr⟩ := hgrows.found l hl hn
      exact ⟨entry, he, List.mem_singleton.mp ho ▸ hr⟩
    · rintro ⟨entry', he', hr⟩
      cases he.symm.trans he'
      refine ⟨?_, hempty l⟩
      induction hr with
      | refl => exact hgrows.met entry (by simp)
      | tail _ hstep ih => exact hgrows.closed _ ih (hempty _) _ hstep

/-- A walk through blocks that are all there ends, with the entry first. -/
theorem TargetsExist.reversePostorder (htargets : f.TargetsExist) {entry : String}
    (he : f.entryLabel = some entry) (hc : f.blocks.contains entry = true) :
    ∃ rest, f.reversePostorder = .ok (entry :: rest) := by
  rcases f.walkFrom_start_ends entry with ⟨w, hrun⟩ | ⟨m, hm, hsteps, -⟩
  · obtain ⟨rest, horder⟩ := order_of_walkFrom ExtTreeSet.not_mem_empty hrun
    exact ⟨rest, (reversePostorder_iff he).mpr ⟨w, hrun, horder.symm⟩⟩
  · exact absurd (htargets.steps hc hsteps) (Bool.eq_false_iff.mp hm)

theorem reversePostorder_spec (hf : f.Fits types signatures) :
    ∃ entry rest, f.reversePostorder = .ok (entry :: rest) ∧ f.entryLabel = some entry ∧
      (entry :: rest).Nodup ∧ ∀ l, l ∈ entry :: rest ↔ f.Reachable l := by
  obtain ⟨entry, b, he, hb⟩ := hf.entry
  obtain ⟨rest, horder⟩ :=
    hf.targetsExist.reversePostorder he (Registry.contains_iff_get?.mpr ⟨b, hb⟩)
  exact ⟨entry, rest, horder, he, nodup_reversePostorder horder⟩

end Function

end Ownership

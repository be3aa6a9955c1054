import Ownership.Proofs.Fixpoint

/-! # Depth-first order

A walk opens a block, goes through all that can be reached from it and has not been met, and then
leaves it, in front of all that it has left before. So an edge goes back in the order only to a
block that is still open when the edge is crossed, and the walk has come from there. It has come by
edges that go forward: an edge that goes back closes a circle, of which it is the only edge that
does.
-/
namespace Ownership
open Std Relation

namespace Function
variable {f : Function} {l m : String} {ls order : List String}

def Precedes (order : List String) (l m : String) : Prop := [l, m].Sublist order

instance : Decidable (Precedes order l m) := inferInstanceAs (Decidable ([l, m].Sublist order))

def Forward (f : Function) (order : List String) (l m : String) : Prop :=
  f.Edge l m ∧ Precedes order l m

def LoopFree (f : Function) : Prop := ∀ l, f.Reachable l → ¬TransGen f.Edge l l

theorem precedes_head (h : m ∈ order) : Precedes (l :: order) l m :=
  (List.singleton_sublist.mpr h).cons_cons l

theorem eq_or_precedes (hl : l ∈ order) (hm : m ∈ order) :
    l = m ∨ Precedes order l m ∨ Precedes order m l := by
  obtain ⟨before, after, rfl⟩ := List.append_of_mem hl
  rcases List.mem_append.mp hm with hbefore | hafter
  · have hself : [l].Sublist (l :: after) := List.singleton_sublist.mpr List.mem_cons_self
    exact Or.inr (Or.inr ((List.singleton_sublist.mpr hbefore).append hself))
  · rcases List.mem_cons.mp hafter with rfl | hafter
    · exact Or.inl rfl
    · exact Or.inr (Or.inl ((precedes_head hafter).trans (List.sublist_append_right before _)))

/-- Blocks that are put in front change nothing between those behind. -/
theorem Forward.steps_append (new : List String) (h : ReflTransGen (f.Forward order) l m) :
    ReflTransGen (f.Forward (new ++ order)) l m :=
  ReflTransGen.mono (fun _ _ hstep =>
    ⟨hstep.1, hstep.2.trans (List.sublist_append_right new order)⟩) _ _ h

namespace Walk
variable {w w' w'' : Walk}

/-- The blocks left lead only to blocks met, and where one leads to another that stands before it,
edges that go forward lead back. -/
structure Deep (f : Function) (w : Walk) : Prop where
  closed : ∀ x ∈ w.order, ∀ m, f.Edge x m → m ∈ w.seen
  back : w.order.Pairwise fun x y => f.Edge y x → ReflTransGen (f.Forward w.order) x y

/-- What a walk from some blocks does to the order: it comes to each block that it meets from one of
them, which it has met too, by edges that go forward. -/
structure Deepens (f : Function) (origins : List String) (w w' : Walk) : Prop where
  tree : ∀ x ∈ w'.seen, x ∉ w.seen → ∃ o ∈ origins, o ∈ w'.order ∧
    ReflTransGen (f.Forward w'.order) o x
  deep : w.Deep f → w'.Deep f

theorem Deepens.cons (h : Deepens f [l] w w') (h' : Deepens f ls w' w'')
    (hgrows : Grows f ls w' w'') : Deepens f (l :: ls) w w'' where
  tree x hx hn := by
    by_cases hx' : x ∈ w'.seen
    · obtain ⟨o, ho, hleft, hsteps⟩ := h.tree x hx' hn
      obtain ⟨new, hnew, -⟩ := hgrows.order
      rw [hnew]
      exact ⟨o, List.mem_cons.mpr (Or.inl (List.mem_singleton.mp ho)),
        List.mem_append_right new hleft, Forward.steps_append new hsteps⟩
    · obtain ⟨o, ho, hsteps⟩ := h'.tree x hx hx'
      exact ⟨o, List.mem_cons_of_mem l ho, hsteps⟩
  deep hw := h'.deep (h.deep hw)

/-- A block is opened, the walk goes through its successors, and the block is left. -/
theorem Deepens.leave {b : Block} (hb : f.blocks.get? l = some b) (hl : l ∉ w.seen)
    (h : Deepens f b.successors (w.meet l) w') (hgrows : Grows f b.successors (w.meet l) w') :
    Deepens f [l] w (w'.leave l) := by
  have htree : ∀ x ∈ w'.seen, x ∉ w.seen → ReflTransGen (f.Forward (l :: w'.order)) l x := by
    intro x hx hn
    by_cases hxl : l = x
    · exact hxl ▸ .refl
    · obtain ⟨o, ho, hleft, hsteps⟩ := h.tree x hx (by simp [hxl, hn])
      exact .head ⟨⟨b, hb, ho⟩, precedes_head hleft⟩ (Forward.steps_append [l] hsteps)
  refine ⟨fun x hx hn => ⟨l, by simp, by simp, htree x hx hn⟩, fun hw => ?_⟩
  have hstart : Deep f (w.meet l) :=
    ⟨fun x hx m hm => ExtTreeSet.mem_insert.mpr (Or.inr (hw.closed x hx m hm)), hw.back⟩
  obtain ⟨hclosed, hback⟩ := h.deep hstart
  refine ⟨List.forall_mem_cons.mpr ⟨?_, hclosed⟩, List.pairwise_cons.mpr ⟨fun y hy hedge => ?_, ?_⟩⟩
  · rintro m ⟨b', hb', hm⟩
    cases hb.symm.trans hb'
    exact hgrows.met m hm
  · -- a block left before this one was opened would have led to it then
    obtain ⟨new, hnew, -, hmem⟩ := hgrows.order
    rw [hnew] at hy
    rcases List.mem_append.mp hy with hy | hy
    · obtain ⟨hseen, hn⟩ := (hmem y).mp hy
      exact htree y hseen fun hy => hn (ExtTreeSet.mem_insert.mpr (Or.inr hy))
    · exact absurd (hw.closed y hy l hedge) hl
  · exact hback.imp fun hsteps hedge => Forward.steps_append [l] (hsteps hedge)

end Walk

theorem foldlM_deepens {n : Nat}
    (hwalk : ∀ (w w' : Walk) (l : String), f.walkFrom n w l = .ok w' → w.Deepens f [l] w')
    {w w' : Walk} (h : ls.foldlM (f.walkFrom n) w = .ok w') : w.Deepens f ls w' := by
  induction ls generalizing w with
  | nil =>
    cases h
    exact ⟨fun x hx hn => absurd hx hn, id⟩
  | cons l ls ih =>
    rw [List.foldlM_cons] at h
    obtain ⟨v, hv, h⟩ := Except.bind_inv h
    exact (hwalk w v l hv).cons (ih h) (foldlM_walkFrom_grows (fun _ _ _ => walkFrom_grows) h)

theorem walkFrom_deepens {n : Nat} {w w' : Walk} (h : f.walkFrom n w l = .ok w') :
    w.Deepens f [l] w' := by
  induction n generalizing w w' l with
  | zero => cases h
  | succ n ih =>
    obtain ⟨hseen, rfl⟩ | ⟨hnew, b, v, hb, hv, rfl⟩ := walkFrom_succ_iff.mp h
    · exact ⟨fun x hx hn => absurd hx hn, id⟩
    · exact .leave hb hnew (foldlM_deepens (fun _ _ _ => ih) hv)
        (foldlM_walkFrom_grows (fun _ _ _ => walkFrom_grows) hv)

/-- Where a block leads to one that the order puts before it, edges that go forward lead back. -/
theorem reversePostorder_back (h : f.reversePostorder = .ok order) :
    order.Pairwise fun x y => f.Edge y x → ReflTransGen (f.Forward order) x y := by
  cases he : f.entryLabel with
  | none =>
    rw [reversePostorder, he] at h
    cases h
    exact .nil
  | some entry =>
    obtain ⟨w, hw, rfl⟩ := (reversePostorder_iff he).mp h
    have hstart : Walk.Deep f {} := ⟨fun x hx => absurd hx List.not_mem_nil, .nil⟩
    exact ((walkFrom_deepens hw).deep hstart).back

theorem LoopFree.not_steps (hloop : f.LoopFree) (hl : f.Reachable l) (hedge : f.Edge m l) :
    ¬ReflTransGen (f.Forward order) l m := by
  intro hsteps
  have hpath : ReflTransGen f.Edge l m := ReflTransGen.mono (fun _ _ hstep => hstep.1) _ _ hsteps
  exact hloop l hl (.tail' hpath hedge)

/-- In a function without loops no block leads to one that the order puts before it. -/
theorem reversePostorder_sorted (hloop : f.LoopFree) (h : f.reversePostorder = .ok order) :
    order.Pairwise fun x y => ¬f.Edge y x := by
  refine (reversePostorder_back h).imp_of_mem fun {x y} hx _ hback hedge => ?_
  exact hloop.not_steps (((nodup_reversePostorder h).2 x).mp hx) hedge (hback hedge)

theorem reversePostorder_of_missing {entry : String} (he : f.entryLabel = some entry)
    (hc : f.blocks.contains entry = false) :
    f.reversePostorder = .error (.missing (.name entry)) := by
  have hnone : f.blocks.get? entry = none := Option.eq_none_iff_forall_ne_some.mpr fun b hb =>
    Bool.eq_false_iff.mp hc (Registry.contains_iff_get?.mpr ⟨b, hb⟩)
  simp [reversePostorder, he, walk_eq_walkFrom, walkFrom, successors_of_missing hnone, bind,
    Except.bind]

/-- Where every edge leads to a block, the walk ends. It lists what control reaches, each block once
and the entry first, and an edge goes back only where edges that go forward lead from its end to its
start: there is none in a function without loops. -/
theorem reversePostorder_depthFirst (htargets : f.TargetsExist) :
    (f.entryLabel = none → f.reversePostorder = .ok []) ∧
    ∀ entry, f.entryLabel = some entry →
      (f.blocks.contains entry = false → f.reversePostorder = .error (.missing (.name entry))) ∧
      (f.blocks.contains entry = true → ∃ rest, f.reversePostorder = .ok (entry :: rest) ∧
        (entry :: rest).Nodup ∧ (∀ l, l ∈ entry :: rest ↔ f.Reachable l) ∧
        (∀ l m, l ∈ entry :: rest → f.Edge l m → ¬Precedes (entry :: rest) l m →
          ReflTransGen (f.Forward (entry :: rest)) m l) ∧
        (f.LoopFree → ∀ l m, l ∈ entry :: rest → f.Edge l m → Precedes (entry :: rest) l m)) := by
  refine ⟨fun he => by rw [reversePostorder, he]; rfl,
    fun entry he => ⟨reversePostorder_of_missing he, fun hc => ?_⟩⟩
  obtain ⟨rest, horder⟩ := htargets.reversePostorder he hc
  obtain ⟨hnodup, hmem⟩ := nodup_reversePostorder horder
  have hback : ∀ l m, l ∈ entry :: rest → f.Edge l m → ¬Precedes (entry :: rest) l m →
      ReflTransGen (f.Forward (entry :: rest)) m l := by
    intro l m hl hedge hn
    have hm : m ∈ entry :: rest := (hmem m).mpr (((hmem l).mp hl).step hedge)
    rcases eq_or_precedes hl hm with rfl | hlm | hml
    · exact .refl
    · exact absurd hlm hn
    · exact List.pairwise_iff_forall_sublist.mp (reversePostorder_back horder) hml hedge
  refine ⟨rest, horder, hnodup, hmem, hback,
    fun hloop l m hl hedge => Decidable.byContradiction fun hn => ?_⟩
  exact hloop.not_steps (((hmem l).mp hl).step hedge) hedge (hback l m hl hedge hn)

/-- Two loops, one inside the other, a branch with both ends at one block, and a block that nothing
leads to. -/
def nestedLoops : Function :=
  ofParts "nestedLoops" []
    [{ label := "entry", ending := some { terminator := .branch "outer" "outer" none } },
     { label := "done", ending := some { terminator := .ret none } },
     { label := "lost", ending := some { terminator := .jump "inner" } },
     { label := "outer", ending := some { terminator := .branch "inner" "done" none } },
     { label := "inner", ending := some { terminator := .branch "inner" "outer" none } }]

/-- The order of the nested loops, in which the way from the outer loop to the inner one goes
forward. -/
theorem reversePostorder_nestedLoops :
    nestedLoops.reversePostorder = .ok ["entry", "outer", "done", "inner"] ∧
    ReflTransGen (nestedLoops.Forward ["entry", "outer", "done", "inner"]) "outer" "inner" := by
  have htargets : nestedLoops.TargetsExist := targetsExist_iff.mpr (by decide)
  obtain ⟨rest, horder, -, -, hback, -⟩ :=
    ((reversePostorder_depthFirst htargets).2 "entry" rfl).2 (by decide)
  have hrun : nestedLoops.reversePostorder = .ok ["entry", "outer", "done", "inner"] := by
    decide +kernel
  cases hrun.symm.trans horder
  exact ⟨hrun, hback "inner" "outer" (by decide) ⟨_, rfl, by decide⟩ (by decide)⟩

end Function

end Ownership

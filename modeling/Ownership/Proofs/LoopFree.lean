import Ownership.Proofs.DepthFirst
import Ownership.Proofs.Rotation

/-! # Functions without loops

If no block that control reaches leads back to itself, the order of the blocks puts each behind all
that lead to it, and the analysis visits them in this order, each once. Each visit finds nothing
waiting but blocks behind it, and the next block among them, since one of the blocks before it leads
there.
-/
namespace Ownership
open Std

namespace Function
variable {f : Function} {l m : String} {ls : List String}

structure Orders (f : Function) (order : List String) : Prop where
  nodup : order.Nodup
  mem : ∀ l, l ∈ order ↔ f.Reachable l
  irrefl : ∀ l ∈ order, ¬f.Edge l l
  sorted : order.Pairwise fun x y => ¬f.Edge y x

theorem orders_reversePostorder {types : TypeTable} {signatures : Registry Signature}
    (hf : f.Fits types signatures) (hloop : f.LoopFree) {order : List String}
    (h : f.reversePostorder = .ok order) : f.Orders order := by
  obtain ⟨entry, rest, horder, -, hnodup, hmem⟩ := reversePostorder_spec hf
  cases h.symm.trans horder
  exact ⟨hnodup, hmem, fun l hl hedge => hloop l ((hmem l).mp hl) (.single hedge),
    reversePostorder_sorted hloop h⟩

namespace Orders
variable {before after : List String}

/-- A block stands behind all blocks that lead to it. -/
theorem mem_before (h : f.Orders (before ++ m :: after)) (hl : f.Reachable l) (hedge : f.Edge l m) :
    l ∈ before := by
  rcases List.mem_append.mp ((h.mem l).mpr hl) with hbefore | hlater
  · exact hbefore
  · rcases List.mem_cons.mp hlater with rfl | hafter
    · exact absurd hedge (h.irrefl l (by simp))
    · exact absurd hedge ((List.pairwise_cons.mp (List.pairwise_append.mp h.sorted).2.1).1 l hafter)

/-- A block stands before all blocks that it leads to. -/
theorem mem_after (h : f.Orders (before ++ m :: after)) (hedge : f.Edge m l) : l ∈ after := by
  have hm : f.Reachable m := (h.mem m).mp (by simp)
  rcases List.mem_append.mp ((h.mem l).mpr (hm.step hedge)) with hbefore | hlater
  · exact absurd hedge ((List.pairwise_append.mp h.sorted).2.2 l hbefore m (by simp))
  · rcases List.mem_cons.mp hlater with rfl | hafter
    · exact absurd hedge (h.irrefl l (by simp))
    · exact hafter

end Orders

theorem Reachable.cases (h : f.Reachable m) :
    f.entryLabel = some m ∨ ∃ l, f.Reachable l ∧ f.Edge l m := by
  obtain ⟨entry, he, h⟩ := h
  cases h with
  | refl => exact Or.inl he
  | tail h hedge => exact Or.inr ⟨_, ⟨entry, he, h⟩, hedge⟩

/-- Where all edges go forward in a list that holds the entry, there is no loop. -/
theorem loopFree_of_forward (hentry : ∀ l, f.entryLabel = some l → l ∈ ls)
    (hforward : ∀ b ∈ f.blocks.entries, b.label ∈ ls → ∀ m ∈ b.successors, m ∈ ls ∧
      ls.idxOf b.label < ls.idxOf m) :
    f.LoopFree := by
  have hedge : ∀ {l m}, l ∈ ls → f.Edge l m → m ∈ ls ∧ ls.idxOf l < ls.idxOf m := by
    rintro l m hl ⟨b, hb, hm⟩
    obtain rfl : b.label = l := Registry.name_of_get?_eq_some hb
    exact hforward b (Registry.mem_of_get?_eq_some hb) hl m hm
  have hsteps : ∀ {l m}, l ∈ ls → Relation.TransGen f.Edge l m → m ∈ ls ∧
      ls.idxOf l < ls.idxOf m := by
    intro l m hl h
    induction h with
    | single h => exact hedge hl h
    | tail _ h ih =>
      obtain ⟨hm, hlt⟩ := hedge ih.1 h
      exact ⟨hm, ih.2.trans hlt⟩
  rintro l ⟨entry, he, h⟩ hcycle
  have hl : l ∈ ls := by
    rcases Relation.reflTransGen_iff_eq_or_transGen.mp h with rfl | h
    · exact hentry l he
    · exact (hsteps (hentry entry he) h).1
  exact Nat.lt_irrefl _ (hsteps hl hcycle).2

/-- Without any loop no witness is handed round. -/
theorem backsOnce_of_acyclic (h : ∀ l, ¬Relation.TransGen f.Edge l l) (x : String) :
    f.BacksOnce x := by
  intro l m l' m' htake _ htake' _ hforth hback
  have hsteps : ∀ {l m}, Relation.ReflTransGen (f.TakesFrom x) l m →
      Relation.ReflTransGen f.Edge l m :=
    fun h => h.lift id fun _ _ => TakesFrom.edge
  have hto : Relation.TransGen f.Edge l m' := .tail (.head' htake.edge (hsteps hforth)) htake'.edge
  exact absurd (hto.trans_left (hsteps hback)) (h l)

theorem exists_regions_of_acyclic {types : TypeTable} {signatures : Registry Signature}
    (hf : f.Fits types signatures) (htypes : ∀ b ∈ f.bindings.entries, types.Defines b.type)
    (h : ∀ l, ¬Relation.TransGen f.Edge l l)
    (policy : RegionPolicy) : ∃ r, Regions.compute f types policy = .ok r := by
  obtain ⟨refs, hrefs⟩ := refs_total htypes
  obtain ⟨liveIn, hlive⟩ := Liveness.exists_liveIn f refs
  have htargets : f.TargetsExist := targetsExist_iff.mpr fun b hb m hm =>
    hf.edge ⟨b, Registry.get?_eq_some_of_mem hb, hm⟩
  exact (Regions.compute_ends hrefs htargets hlive policy).1
    (Witness.rests_of_backsOnce hlive fun x _ => backsOnce_of_acyclic h x)

end Function

namespace Checker
variable {k : Checker} {f : Function} {r : Regions} {order before after labels : List String}
    {p p' q : Progress}
variable {l m : String} {n : Nat}

/-- The visits of the analysis: the first block of the order that waits is visited, until none
waits. -/
inductive Visits (k : Checker) (f : Function) (r : Regions) (order : List String) :
    Progress → List String → Progress → Prop
  | done {p : Progress} (h : order.find? p.waiting.contains = none) : Visits k f r order p [] p
  | next {p p' q : Progress} {l : String} {labels : List String}
      (hl : order.find? p.waiting.contains = some l) (hvisit : k.visit f r p l = .ok p')
      (h : Visits k f r order p' labels q) : Visits k f r order p (l :: labels) q

theorem Visits.length (h : k.Visits f r order p labels q) :
    q.visits = p.visits + labels.length := by
  induction h with
  | done _ => rfl
  | next _ hvisit _ ih =>
    rw [ih, visits_visit hvisit, List.length_cons]
    omega

/-- Visits that end with no block waiting are such visits. -/
theorem visits_of_visitAll (h : k.visitAll f r order n p = .ok q) (hdrained : ∀ l, l ∉ q.waiting) :
    ∃ labels, k.Visits f r order p labels q := by
  induction n generalizing p with
  | zero =>
    cases h
    refine ⟨[], .done (List.find?_eq_none.mpr fun l _ hl => ?_)⟩
    exact hdrained l (ExtTreeSet.contains_iff_mem.mp hl)
  | succ n ih =>
    rw [visitAll] at h
    cases hnext : order.find? p.waiting.contains with
    | none =>
      rw [hnext] at h
      cases h
      exact ⟨[], .done hnext⟩
    | some l =>
      rw [hnext] at h
      obtain ⟨p', hvisit, h⟩ := Except.bind_inv h
      obtain ⟨labels, hlabels⟩ := ih h
      exact ⟨l :: labels, .next hnext hvisit hlabels⟩

structure Spreads (ms : List String) (p q : Progress) : Prop where
  known : ∀ l, l ∈ q.inStates ↔ l ∈ p.inStates ∨ l ∈ ms
  waits : ∀ l ∈ p.waiting, l ∈ q.waiting
  waiting : ∀ l ∈ q.waiting, l ∈ p.waiting ∨ l ∈ ms
  fresh : ∀ l ∈ q.inStates, l ∉ p.inStates → l ∈ q.waiting

theorem spreads_learn (p : Progress) (m : String) (s : FlowState) :
    Spreads [m] p (p.learn m s) where
  known l := by simp [Progress.learn, eq_comm (a := l), or_comm]
  waits l hl := by simp [Progress.learn, hl]
  waiting l hl := by simpa [Progress.learn, eq_comm (a := l), or_comm] using hl
  fresh l hl hn := by simp_all [Progress.learn]

theorem spreads_flowInto (r : Regions) (out : FlowState) (p : Progress) (m : String) :
    Spreads [m] p (flowInto r out p m) := by
  rcases flowInto_cases r out p m with ⟨known, hknown, -, heq⟩ | ⟨-, heq⟩ | ⟨known, -, -, heq⟩
  · have hm : m ∈ p.inStates := mem_inStates_iff.mpr ⟨known, hknown⟩
    rw [heq]
    exact ⟨fun l => ⟨Or.inl, fun h => h.elim id fun hl => List.mem_singleton.mp hl ▸ hm⟩,
      fun _ hl => hl, fun _ hl => Or.inl hl, fun _ hl hn => absurd hl hn⟩
  · rw [heq]
    exact spreads_learn p m _
  · rw [heq]
    exact spreads_learn p m _

theorem spreads_foldl (r : Regions) (out : FlowState) (ms : List String) (p : Progress) :
    Spreads ms p (ms.foldl (flowInto r out) p) := by
  induction ms generalizing p with
  | nil => exact ⟨by simp, fun _ hl => hl, fun _ hl => Or.inl hl, fun _ hl hn => absurd hl hn⟩
  | cons m ms ih =>
    have hone := spreads_flowInto r out p m
    have hrest := ih (flowInto r out p m)
    refine ⟨fun l => ?_, fun l hl => hrest.waits l (hone.waits l hl), fun l hl => ?_,
      fun l hl hn => ?_⟩
    · rw [List.foldl_cons, hrest.known, hone.known, List.mem_singleton, List.mem_cons, or_assoc]
    · rcases hrest.waiting l hl with hl | hl
      · exact (hone.waiting l hl).imp_right fun hl =>
          List.mem_cons.mpr (Or.inl (List.mem_singleton.mp hl))
      · exact Or.inr (List.mem_cons_of_mem m hl)
    · by_cases hmid : l ∈ (flowInto r out p m).inStates
      · exact hrest.waits l (hone.fresh l hmid hn)
      · exact hrest.fresh l hl hmid

/-- Between two visits: the blocks before the point have been visited, only blocks behind it wait,
and all of them do of which anything is known. -/
structure Swept (f : Function) (entry : String) (before after : List String)
    (p : Progress) : Prop where
  waiting : ∀ l ∈ p.waiting, l ∈ after
  known : ∀ l ∈ after, l ∈ p.inStates → l ∈ p.waiting
  entered : entry ∈ p.inStates
  led : ∀ l ∈ before, ∀ m, f.Edge l m → m ∈ p.inStates

/-- The next block in the order waits, since it is the entry or a block before it leads there. -/
theorem Swept.next_waits {entry : String} (h : Swept f entry before (m :: after) p)
    (he : f.entryLabel = some entry) (horder : f.Orders (before ++ m :: after)) :
    (before ++ m :: after).find? p.waiting.contains = some m := by
  have hknown : m ∈ p.inStates := by
    rcases ((horder.mem m).mp (by simp)).cases with hentry | ⟨l, hl, hedge⟩
    · exact Option.some.inj (he.symm.trans hentry) ▸ h.entered
    · exact h.led l (horder.mem_before hl hedge) m hedge
  refine List.find?_eq_some_iff_append.mpr ⟨?_, before, after, rfl, fun l hl => ?_⟩
  · exact ExtTreeSet.contains_iff_mem.mpr (h.known m (by simp) hknown)
  · rw [Bool.not_eq_true', Names.contains_eq_false]
    exact fun hwaits => (List.nodup_append.mp horder.nodup).2.2 l hl l (h.waiting l hwaits) rfl

/-- A visit of the next block lets only blocks behind it wait. -/
theorem Swept.visit {entry : String} (h : Swept f entry before (m :: after) p)
    (horder : f.Orders (before ++ m :: after)) (hvisit : k.visit f r p m = .ok p') :
    Swept f entry (before ++ [m]) after p' := by
  obtain ⟨s, t, es, b, -, -, hb, rfl⟩ := visit_iff.mp hvisit
  have hspreads := spreads_foldl r t b.successors (p.leave m t)
  have hwait : ∀ l, l ∈ (p.leave m t).waiting ↔ l ≠ m ∧ l ∈ p.waiting := by
    intro l
    simp [Progress.leave, eq_comm (a := m)]
  have hm : m ∉ after := (List.nodup_cons.mp (List.nodup_append.mp horder.nodup).2.1).1
  refine ⟨fun l hl => ?_, fun l hl hknown => ?_, ?_, fun l hl x hedge => ?_⟩
  · rcases hspreads.waiting l hl with hold | hnew
    · obtain ⟨hne, hold⟩ := (hwait l).mp hold
      exact (List.mem_cons.mp (h.waiting l hold)).resolve_left hne
    · exact horder.mem_after ⟨b, hb, hnew⟩
  · by_cases hold : l ∈ p.inStates
    · exact hspreads.waits l
        ((hwait l).mpr ⟨fun heq => hm (heq ▸ hl), h.known l (List.mem_cons_of_mem m hl) hold⟩)
    · exact hspreads.fresh l hknown hold
  · exact (hspreads.known entry).mpr (Or.inl h.entered)
  · rcases List.mem_append.mp hl with hl | hl
    · exact (hspreads.known x).mpr (Or.inl (h.led l hl x hedge))
    · obtain ⟨b', hb', hx⟩ := List.mem_singleton.mp hl ▸ hedge
      cases hb.symm.trans hb'
      exact (hspreads.known x).mpr (Or.inr hx)

/-- The visits go through the rest of the order. -/
theorem Swept.visits_eq {entry : String} (h : Swept f entry before after p)
    (he : f.entryLabel = some entry) (horder : f.Orders (before ++ after))
    (hvisits : k.Visits f r (before ++ after) p labels q) : labels = after := by
  induction after generalizing before p labels with
  | nil =>
    cases hvisits with
    | done _ => rfl
    | next hl _ _ => cases h.waiting _ (ExtTreeSet.contains_iff_mem.mp (List.find?_some hl))
  | cons m after ih =>
    have hnext := h.next_waits he horder
    cases hvisits with
    | done hnone => cases hnone.symm.trans hnext
    | next hl hvisit hrest =>
      cases hl.symm.trans hnext
      have hswept := h.visit horder hvisit
      rw [List.append_cons] at horder hrest
      rw [ih hswept horder hrest]

theorem swept_start {entry : String} {rest : List String} (s : FlowState) :
    Swept f entry [] (entry :: rest) (.start entry s) where
  waiting l hl := by
    have heq : entry = l := by simpa [Progress.start] using hl
    exact heq ▸ List.mem_cons_self
  known l _ hl := by simpa [Progress.start] using hl
  entered := by simp [Progress.start]
  led l hl := absurd hl List.not_mem_nil

/-- A well-formed function in which no block that control reaches leads back to itself is analysed
in one pass. Where there are regions and the types are there with all they are made of, the analysis
has a result; there are regions if no block at all leads back to itself. The analysis visits the
blocks that control reaches, each once, in the order of the walk, and each behind all the blocks
that lead to it. -/
theorem loopFree_visited_once (hf : WellFormed.checkFunction f k.types (k.signaturesFor f) = .ok ())
    (hloop : f.LoopFree) :
    (k.TypesGrounded f → (∀ l, ¬Relation.TransGen f.Edge l l) →
      ∃ r, Regions.compute f k.types k.policy = .ok r) ∧
    ∀ r, Regions.compute f k.types k.policy = .ok r →
      (k.TypesGrounded f → ∃ a, k.analyze f = .ok a) ∧
      ∀ a, k.analyze f = .ok a → f.reversePostorder = .ok a.order ∧ a.visits = a.order.length ∧
        a.order.Nodup ∧ (∀ l, l ∈ a.order ↔ f.Reachable l) ∧
        (∃ entry s p, f.entryLabel = some entry ∧ k.entryState f = .ok s ∧
          k.Visits f r a.order (.start entry s) a.order p ∧ a.inStates = p.inStates ∧
          a.outStates = p.outStates) ∧
        ∀ before m after, a.order = before ++ m :: after → ∀ l, f.Reachable l → f.Edge l m →
          l ∈ before := by
  have hfits := WellFormed.checkFunction_inv hf
  refine ⟨fun ht hacyclic => ?_, fun r hr => ⟨fun ht => analyze_total hf hr ht, fun a ha => ?_⟩⟩
  · exact Function.exists_regions_of_acyclic hfits (fun b hb => (ht.bindings b hb).defines)
      hacyclic k.policy
  · obtain ⟨entry, rest, s, p, horder, he, hs, -, hdrained, -, rfl, hrun⟩ :=
      analyze_drained hf hr ha
    have horders := Function.orders_reversePostorder hfits hloop horder
    obtain ⟨labels, hvisits⟩ := visits_of_visitAll (hrun _ (Nat.le_refl _)) hdrained
    obtain rfl : labels = entry :: rest := (swept_start s).visits_eq he horders hvisits
    refine ⟨horder, hvisits.length.trans (Nat.zero_add _), horders.nodup, horders.mem, ?_, ?_⟩
    · exact ⟨entry, s, p, he, hs, hvisits, rfl, rfl⟩
    · intro before m after heq l hl hedge
      change entry :: rest = before ++ m :: after at heq
      rw [heq] at horders
      exact horders.mem_before hl hedge

end Checker

namespace Function

/-- Branches that meet again, one of them twice over and one behind the meeting point. A block that
nothing leads to runs in a circle. -/
def skippingBranches : Function :=
  ofParts "skippingBranches" [{ name := "x", type := 1 }, { name := "p", type := 2 }]
    [{ label := "entry", body := [{ op := .init "x" none }, { op := .borrow "x" .shared "p" }],
       ending := some { terminator := .branch "left" "right" none } },
     { label := "done", body := [{ op := .use "p" }], ending := some { terminator := .ret none } },
     { label := "meet", body := [{ op := .use "p" }],
       ending := some { terminator := .jump "done" } },
     { label := "stray", body := [{ op := .use "p" }],
       ending := some { terminator := .jump "stray" } },
     { label := "right", ending := some { terminator := .branch "done" "meet" none } },
     { label := "left", ending := some { terminator := .branch "meet" "meet" none } }]

theorem skippingBranches_loopFree : skippingBranches.LoopFree := by
  have hentry : ∀ l, skippingBranches.entryLabel = some l →
      l ∈ ["entry", "left", "right", "meet", "done"] := by
    rintro l ⟨⟩
    decide
  exact loopFree_of_forward hentry (by decide)

def tornBranch : Function :=
  ofParts "tornBranch" [{ name := "x", type := 4 }]
    [{ label := "entry", ending := some { terminator := .branch "left" "right" none } },
     { label := "left", ending := some { terminator := .jump "meet" } },
     { label := "right", body := [{ op := .init "x" none }],
       ending := some { terminator := .jump "meet" } },
     { label := "meet", ending := some { terminator := .ret none } }]

end Function

namespace Checker

/-- The five blocks are visited in this order. -/
theorem skippingBranches_visited_once : ∃ r a s p,
    WellFormed.checkFunction .skippingBranches basic.types
      (basic.signaturesFor .skippingBranches) = .ok () ∧
    Function.skippingBranches.LoopFree ∧ Regions.compute .skippingBranches .basic .lastUse = .ok r ∧
    basic.analyze .skippingBranches = .ok a ∧ a.order = ["entry", "right", "left", "meet", "done"] ∧
    a.visits = 5 ∧
    basic.entryState .skippingBranches = .ok s ∧
    basic.Visits .skippingBranches r a.order (.start "entry" s)
      ["entry", "right", "left", "meet", "done"] p := by
  have hf : WellFormed.checkFunction .skippingBranches basic.types
      (basic.signaturesFor .skippingBranches) = .ok () := by
    decide
  have hloop := Function.skippingBranches_loopFree
  obtain ⟨r, hr⟩ : ∃ r, Regions.compute .skippingBranches .basic .lastUse = .ok r :=
    Except.exists_of_isOk (by decide +kernel)
  obtain ⟨-, hvisited⟩ := loopFree_visited_once hf hloop
  obtain ⟨htotal, honce⟩ := hvisited r hr
  obtain ⟨a, ha⟩ := htotal (typesGrounded_basic (by decide) ⟨rfl, rfl⟩)
  obtain ⟨horder, hvisits, -, -, ⟨entry, s, p, he, hs, hall, -, -⟩, -⟩ := honce a ha
  have hlist : Function.skippingBranches.reversePostorder =
      .ok ["entry", "right", "left", "meet", "done"] := by
    decide +kernel
  have heq : a.order = ["entry", "right", "left", "meet", "done"] :=
    Except.ok.inj (horder.symm.trans hlist)
  cases he
  exact ⟨r, a, s, p, hf, hloop, hr, ha, heq, by rw [hvisits, heq]; rfl, hs, heq ▸ hall⟩

/-- No block leads back to itself and there are regions, but the analysis misses a member of a type
and has no result. -/
theorem tornBranch_unvisited : ∃ r,
    WellFormed.checkFunction .tornBranch chained.types
      (chained.signaturesFor .tornBranch) = .ok () ∧
    Function.tornBranch.LoopFree ∧
    Regions.compute .tornBranch chained.types chained.policy = .ok r ∧
    chained.analyze .tornBranch = .error (.missing (.type 9)) := by
  obtain ⟨r, hr⟩ : ∃ r, Regions.compute .tornBranch chained.types chained.policy = .ok r :=
    Except.exists_of_isOk (by decide +kernel)
  have hentry : ∀ l, Function.tornBranch.entryLabel = some l →
      l ∈ ["entry", "left", "right", "meet"] := by
    rintro l ⟨⟩
    decide
  have hfails : (chained.analyze .tornBranch).map (fun _ => ()) = .error (.missing (.type 9)) := by
    decide +kernel
  exact ⟨r, by decide, Function.loopFree_of_forward hentry (by decide), hr,
    Except.eq_error_of_map hfails⟩

end Checker

end Ownership

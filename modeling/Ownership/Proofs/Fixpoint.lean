import Mathlib.Algebra.GroupWithZero.Nat
import Mathlib.Algebra.Order.BigOperators.Group.List
import Mathlib.Algebra.Order.Group.Nat
import Ownership.Check.Report
import Ownership.Proofs.Totality
import Ownership.Proofs.Walk

/-! # The analysis ends in a solution

Between two visits each block either waits or is settled: its result is what its known state leads
to, and its successors have taken that result in. A block waits again only after it has learnt a
fact, and there are finitely many facts to learn, so the visits end with every reachable block
settled.
-/
namespace Ownership
open Std

/-- A solution of the flow equations of a function: exactly the reachable blocks have states, each
block's result comes from what is known on its entry, and no block learns anything more from the
start or from a result that flows into it. -/
structure Analysis.Solves (k : Checker) (f : Function) (r : Regions) (a : Analysis) : Prop where
  function : a.function = f
  regions : a.regions = r
  order : f.reversePostorder = .ok a.order
  inStates : ∀ l, l ∈ a.inStates ↔ f.Reachable l
  outStates : ∀ l, l ∈ a.outStates ↔ f.Reachable l
  result : ∀ (l : String) (s : FlowState), a.inStates[l]? = some s →
    ∃ t es, k.transferBlock f r l s = .ok (t, es) ∧ a.outStates[l]? = some t
  entry : ∀ l s, f.entryLabel = some l → k.entryState f = .ok s →
    ∃ u, a.inStates[l]? = some u ∧ (u.merge s).agrees u = true
  edge : ∀ (l m : String) (t : FlowState), a.outStates[l]? = some t → f.Edge l m →
    ∃ u, a.inStates[m]? = some u ∧ (u.merge (Checker.enter r t m)).agrees u = true

namespace Checker
open FlowState (Below)

variable {k : Checker} {f : Function} {r : Regions} {types : TypeTable} {V : Vocabulary}
variable {p p' p'' : Progress} {out : FlowState} {l m : String} {ms : List String}

namespace Progress

def learn (p : Progress) (m : String) (s : FlowState) : Progress :=
  { p with inStates := p.inStates.insert m s, waiting := p.waiting.insert m }

def leave (p : Progress) (l : String) (t : FlowState) : Progress :=
  { p with
    outStates := p.outStates.insert l t, waiting := p.waiting.erase l, visits := p.visits + 1 }

def All (Q : String → FlowState → Prop) (p : Progress) : Prop :=
  ∀ l s, p.inStates[l]? = some s → Q l s

theorem All.learn {Q : String → FlowState → Prop} (h : p.All Q) {s : FlowState} (hs : Q m s) :
    (p.learn m s).All Q := by
  intro l t ht
  simp only [Progress.learn, ExtTreeMap.getElem?_insert, LawfulEqCmp.compare_eq_iff_eq] at ht
  split at ht
  · rename_i heq
    subst heq
    cases ht
    exact hs
  · exact h l t ht

def charge (V : Vocabulary) (p : Progress) (l : String) : Nat :=
  match p.inStates[l]? with
  | none => 0
  | some s => s.weight V + 1

theorem charge_le (V : Vocabulary) (p : Progress) (l : String) :
    p.charge V l ≤ V.facts.length + 1 := by
  rw [charge]
  split
  · omega
  · exact Nat.succ_le_succ (FlowState.weight_le V _)

/-- A bound on the visits that have been made or are waited for. -/
def budget (f : Function) (V : Vocabulary) (p : Progress) : Nat :=
  (f.blocks.names.map (p.charge V)).sum

theorem budget_le (f : Function) (V : Vocabulary) (p : Progress) :
    p.budget f V ≤ f.blocks.size * (V.facts.length + 1) := by
  have hle : p.budget f V ≤ (f.blocks.names.map (p.charge V)).length * (V.facts.length + 1) := by
    refine List.sum_le_card_nsmul _ _ ?_
    intro n hn
    obtain ⟨l, -, rfl⟩ := List.mem_map.mp hn
    exact charge_le V p l
  simpa [Registry.names, Registry.size] using hle

theorem budget_learn_lt (hm : m ∈ f.blocks.names) {s : FlowState}
    (hcharge : p.charge V m < s.weight V + 1) : p.budget f V < (p.learn m s).budget f V := by
  have hnew : (p.learn m s).charge V m = s.weight V + 1 := by simp [charge, learn]
  have hold : ∀ l, l ≠ m → (p.learn m s).charge V l = p.charge V l := by
    intro l hl
    simp [charge, learn, ExtTreeMap.getElem?_insert, hl.symm]
  refine List.sum_lt_sum _ _ (fun l _ => ?_) ⟨m, hm, by omega⟩
  by_cases hl : l = m
  · subst hl
    omega
  · exact (hold l hl).ge

end Progress

/-- What flowing into a block does: nothing if the block knows as much already, else the block
learns. -/
theorem flowInto_cases (r : Regions) (out : FlowState) (p : Progress) (m : String) :
    (∃ known, p.inStates[m]? = some known ∧ Below (enter r out m) known ∧ flowInto r out p m = p) ∨
    (p.inStates[m]? = none ∧ flowInto r out p m = p.learn m (enter r out m)) ∨
    ∃ known, p.inStates[m]? = some known ∧ ¬Below (enter r out m) known ∧
      flowInto r out p m = p.learn m (known.merge (enter r out m)) := by
  rw [flowInto]
  cases hm : p.inStates[m]? with
  | none => exact Or.inr (Or.inl ⟨rfl, rfl⟩)
  | some known =>
    by_cases hb : Below (enter r out m) known
    · exact Or.inl ⟨known, rfl, hb, if_pos (FlowState.merge_agrees_iff.mpr hb)⟩
    · exact Or.inr (Or.inr ⟨known, rfl, hb, if_neg fun h => hb (FlowState.merge_agrees_iff.mp h)⟩)

/-- What visits preserve of the states they find: it holds at the start, and blocks and joins keep
it. -/
structure Invariant (k : Checker) (f : Function) (r : Regions)
    (Q : String → FlowState → Prop) : Prop where
  entry : ∀ l s, f.entryLabel = some l → k.entryState f = .ok s → Q l s
  step : ∀ l s t es m, Q l s → k.transferBlock f r l s = .ok (t, es) → f.Edge l m →
    Q m (enter r t m)
  merge : ∀ l s t, Q l s → Q l t → Q l (s.merge t)

theorem flowInto_all {Q : String → FlowState → Prop}
    (hmerge : ∀ s t, Q m s → Q m t → Q m (s.merge t)) (hp : p.All Q) (hm : Q m (enter r out m)) :
    (flowInto r out p m).All Q := by
  rcases flowInto_cases r out p m with ⟨_, _, _, heq⟩ | ⟨_, heq⟩ | ⟨known, hknown, _, heq⟩
  · rwa [heq]
  · rw [heq]
    exact hp.learn hm
  · rw [heq]
    exact hp.learn (hmerge _ _ (hp m known hknown) hm)

/-- What one visit does. -/
theorem visit_iff : k.visit f r p l = .ok p' ↔ ∃ s t es b, p.inStates[l]? = some s ∧
    k.transferBlock f r l s = .ok (t, es) ∧ f.blocks.get? l = some b ∧
    p' = b.successors.foldl (flowInto r t) (p.leave l t) := by
  rw [visit]
  cases hl : p.inStates[l]? with
  | none => simp [throw, throwThe, MonadExceptOf.throw]
  | some s =>
    constructor
    · intro h
      obtain ⟨⟨t, es⟩, ht, h⟩ := Except.bind_inv h
      obtain ⟨ms, hms, h⟩ := Except.bind_inv h
      obtain ⟨b, hb, rfl⟩ := Function.successors_iff.mp hms
      cases h
      exact ⟨s, t, es, b, rfl, ht, hb, rfl⟩
    · rintro ⟨_, t, es, b, ⟨⟩, ht, hb, rfl⟩
      refine (Except.bind_of_ok ht).trans ?_
      exact Except.bind_of_ok (Function.successors_iff.mpr ⟨b, hb, rfl⟩)

theorem visit_all {Q : String → FlowState → Prop} (hQ : k.Invariant f r Q) (hp : p.All Q)
    (hrun : k.visit f r p l = .ok p') : p'.All Q := by
  obtain ⟨s, t, es, b, hs, ht, hb, rfl⟩ := visit_iff.mp hrun
  refine List.foldlRecOn (motive := fun q : Progress => q.All Q) b.successors _ hp fun q hq m hm =>
    ?_
  exact flowInto_all (hQ.merge m) hq (hQ.step l s t es m (hp l s hs) ht ⟨b, hb, hm⟩)

def Located (k : Checker) (f : Function) (l : String) (s : FlowState) : Prop :=
  f.Reachable l ∧ s.Inside (f.vocabulary k.types)

theorem located_invariant (hf : f.Fits k.types (k.signaturesFor f)) :
    k.Invariant f r (k.Located f) where
  entry l _ hl hs := ⟨⟨l, hl, .refl⟩, entryState_inside hs⟩
  step _ _ _ _ _ h ht hm := ⟨h.1.step hm, (transferBlock_inside hf h.2 ht).keepLoans _⟩
  merge _ _ _ hs ht := ⟨hs.1, hs.2.merge ht.2⟩

/-- What flowing into some blocks changes: they take the state in, and who learns waits. Every wait
is paid for by a learnt fact. -/
structure Progress.Fed (f : Function) (V : Vocabulary) (r : Regions) (out : FlowState)
    (ms : List String) (p p' : Progress) : Prop where
  fed : ∀ m ∈ ms, ∃ s, p'.inStates[m]? = some s ∧ Below (enter r out m) s
  grown : ∀ (l : String) (s : FlowState), p.inStates[l]? = some s →
    ∃ s', p'.inStates[l]? = some s' ∧ Below s s'
  still : ∀ l : String, l ∉ p'.waiting → p'.inStates[l]? = p.inStates[l]?
  waiting : ∀ l ∈ p.waiting, l ∈ p'.waiting
  known : ∀ l ∈ p'.waiting, l ∈ p.waiting ∨ l ∈ p'.inStates
  outStates : p'.outStates = p.outStates
  visits : p'.visits = p.visits
  paid : p'.waiting.size + p.budget f V ≤ p.waiting.size + p'.budget f V

namespace Progress.Fed

theorem refl (h : ∀ m ∈ ms, ∃ s, p.inStates[m]? = some s ∧ Below (enter r out m) s) :
    Fed f V r out ms p p where
  fed := h
  grown _ s hs := ⟨s, hs, .refl s⟩
  still _ _ := rfl
  waiting _ hl := hl
  known _ hl := Or.inl hl
  outStates := rfl
  visits := rfl
  paid := Nat.le_refl _

theorem cons (h : Fed f V r out [m] p p') (h' : Fed f V r out ms p' p'') :
    Fed f V r out (m :: ms) p p'' where
  fed := by
    refine List.forall_mem_cons.mpr ⟨?_, h'.fed⟩
    obtain ⟨s, hs, hb⟩ := h.fed m (by simp)
    obtain ⟨s', hs', hb'⟩ := h'.grown m s hs
    exact ⟨s', hs', hb.trans hb'⟩
  grown l s hs := by
    obtain ⟨s', hs', hb⟩ := h.grown l s hs
    obtain ⟨s'', hs'', hb'⟩ := h'.grown l s' hs'
    exact ⟨s'', hs'', hb.trans hb'⟩
  still l hl := (h'.still l hl).trans (h.still l fun hw => hl (h'.waiting l hw))
  waiting l hl := h'.waiting l (h.waiting l hl)
  known l hl := by
    rcases h'.known l hl with hw | hin
    · rcases h.known l hw with hw | hin
      · exact Or.inl hw
      · obtain ⟨s', hs', -⟩ := h'.grown l p'.inStates[l] (ExtTreeMap.getElem?_eq_some_getElem hin)
        exact Or.inr (ExtTreeMap.mem_iff_isSome_getElem?.mpr (by rw [hs']; rfl))
    · exact Or.inr hin
  outStates := h'.outStates.trans h.outStates
  visits := h'.visits.trans h.visits
  paid := by
    have := h.paid
    have := h'.paid
    omega

/-- A block that learns a state which tells it more. -/
theorem learn {s : FlowState} (hm : m ∈ f.blocks.names) (hin : Below (enter r out m) s)
    (hup : ∀ known, p.inStates[m]? = some known → Below known s)
    (hcharge : p.charge V m < s.weight V + 1) : Fed f V r out [m] p (p.learn m s) := by
  have hnew : (p.learn m s).inStates[m]? = some s := by simp [Progress.learn]
  have hold : ∀ l, l ≠ m → (p.learn m s).inStates[l]? = p.inStates[l]? := by
    intro l hl
    simp [Progress.learn, ExtTreeMap.getElem?_insert, hl.symm]
  have hwait : ∀ l, l ∈ (p.learn m s).waiting ↔ m = l ∨ l ∈ p.waiting := by simp [Progress.learn]
  refine ⟨?_, ?_, ?_, ?_, ?_, rfl, rfl, ?_⟩
  · intro l hl
    rw [List.mem_singleton.mp hl]
    exact ⟨s, hnew, hin⟩
  · intro l known hknown
    by_cases hl : l = m
    · subst hl
      exact ⟨s, hnew, hup known hknown⟩
    · exact ⟨known, (hold l hl).trans hknown, .refl known⟩
  · intro l hl
    exact hold l fun heq => hl ((hwait l).mpr (Or.inl heq.symm))
  · exact fun l hl => (hwait l).mpr (Or.inr hl)
  · intro l hl
    rcases (hwait l).mp hl with rfl | hl
    · exact Or.inr (ExtTreeMap.mem_iff_isSome_getElem?.mpr (by rw [hnew]; rfl))
    · exact Or.inl hl
  · have hsize : (p.learn m s).waiting.size ≤ p.waiting.size + 1 := ExtTreeSet.size_insert_le
    have hbudget := budget_learn_lt hm hcharge
    omega

end Progress.Fed

theorem flowInto_fed (hp : p.All fun _ s => s.Inside V) (hm : m ∈ f.blocks.names)
    (hout : (enter r out m).Inside V) : Progress.Fed f V r out [m] p (flowInto r out p m) := by
  rcases flowInto_cases r out p m
    with ⟨known, hknown, hb, heq⟩ | ⟨hnone, heq⟩ | ⟨known, hknown, hb, heq⟩
  · rw [heq]
    refine .refl fun l hl => ?_
    rw [List.mem_singleton.mp hl]
    exact ⟨known, hknown, hb⟩
  · rw [heq]
    refine .learn hm (.refl _) (fun known hknown => ?_) ?_
    · rw [hnone] at hknown
      cases hknown
    · simp [Progress.charge, hnone]
  · rw [heq]
    have hleft := Below.merge_left known (enter r out m)
    have hmore : ¬Below (known.merge (enter r out m)) known := fun h =>
      hb ((Below.merge_right known _).trans h)
    refine .learn hm (Below.merge_right known _) (fun known' hknown' => ?_) ?_
    · cases hknown.symm.trans hknown'
      exact hleft
    · have := hleft.weight_lt hmore ((hp m known hknown).merge hout)
      simp only [Progress.charge, hknown]
      omega

theorem foldl_flowInto_fed (hms : ∀ m ∈ ms, m ∈ f.blocks.names ∧ (enter r out m).Inside V)
    (hp : p.All fun _ s => s.Inside V) :
    Progress.Fed f V r out ms p (ms.foldl (flowInto r out) p) := by
  induction ms generalizing p with
  | nil => exact .refl (by simp)
  | cons m ms ih =>
    obtain ⟨⟨hm, hout⟩, hms⟩ := List.forall_mem_cons.mp hms
    have hnext : (flowInto r out p m).All fun _ s => s.Inside V :=
      flowInto_all (fun _ _ hs ht => hs.merge ht) hp hout
    exact (flowInto_fed hp hm hout).cons (ih hms hnext)

/-- Between two visits: who does not wait is settled, and each visit made or waited for is paid
for. -/
structure Progress.Sound (k : Checker) (f : Function) (r : Regions) (entry : String)
    (s₀ : FlowState) (p : Progress) : Prop where
  entered : ∃ s, p.inStates[entry]? = some s ∧ Below s₀ s
  waiting : ∀ l ∈ p.waiting, l ∈ p.inStates
  outStates : ∀ l ∈ p.outStates, l ∈ p.inStates
  settled : ∀ (l : String) (s : FlowState), p.inStates[l]? = some s → l ∉ p.waiting →
    ∃ t es, k.transferBlock f r l s = .ok (t, es) ∧ p.outStates[l]? = some t ∧
      ∀ m, f.Edge l m → ∃ s', p.inStates[m]? = some s' ∧ Below (enter r t m) s'
  paid : p.visits + p.waiting.size ≤ p.budget f (f.vocabulary k.types)

variable {entry : String} {s₀ : FlowState}

theorem mem_inStates_iff : l ∈ p.inStates ↔ ∃ s, p.inStates[l]? = some s := by
  rw [ExtTreeMap.mem_iff_isSome_getElem?, Option.isSome_iff_exists]

/-- A visit takes the result of a waiting block in where control may go next. -/
theorem visit_fed (hf : f.Fits k.types (k.signaturesFor f)) (hall : p.All (k.Located f))
    (hrun : k.visit f r p l = .ok p') : ∃ s t es b, p.inStates[l]? = some s ∧
    k.transferBlock f r l s = .ok (t, es) ∧ f.blocks.get? l = some b ∧
    Progress.Fed f (f.vocabulary k.types) r t b.successors (p.leave l t) p' := by
  obtain ⟨s, t, es, b, hs, ht, hb, rfl⟩ := visit_iff.mp hrun
  have hinside := transferBlock_inside hf (hall l s hs).2 ht
  have hms : ∀ m ∈ b.successors, m ∈ f.blocks.names ∧ (enter r t m).Inside (f.vocabulary k.types) :=
    fun m hm => ⟨Registry.contains_iff_mem_names.mp (hf.edge ⟨b, hb, hm⟩), hinside.keepLoans _⟩
  exact ⟨s, t, es, b, hs, ht, hb, foldl_flowInto_fed hms fun m u hu => (hall m u hu).2⟩

namespace Progress.Sound

/-- A block that waits neither before nor after a visit has kept its state, and its successors have
only grown. -/
theorem settled_visit {s t : FlowState} {es : List Event} {b : Block} (hp : p.Sound k f r entry s₀)
    (hs : p.inStates[l]? = some s) (ht : k.transferBlock f r l s = .ok (t, es))
    (hb : f.blocks.get? l = some b)
    (hfed : Fed f V r t b.successors (p.leave l t) p') {u : FlowState}
    (hu : p'.inStates[m]? = some u)
    (hm : m ∉ p'.waiting) : ∃ t es, k.transferBlock f r m u = .ok (t, es) ∧
    p'.outStates[m]? = some t ∧
      ∀ m', f.Edge m m' → ∃ s', p'.inStates[m']? = some s' ∧ Below (enter r t m') s' := by
  have hsame : p.inStates[m]? = some u := (hfed.still m hm).symm.trans hu
  have houts : p'.outStates = p.outStates.insert l t := hfed.outStates
  by_cases hml : m = l
  · subst hml
    cases hs.symm.trans hsame
    refine ⟨t, es, ht, by simp [houts], ?_⟩
    rintro m' ⟨b', hb', hm'⟩
    cases hb.symm.trans hb'
    exact hfed.fed m' hm'
  · have hne : ¬compare l m = .eq := fun h => hml (LawfulEqCmp.eq_of_compare h).symm
    have hwait : m ∉ p.waiting := fun hw => hm (hfed.waiting m (ExtTreeSet.mem_erase.mpr ⟨hne, hw⟩))
    obtain ⟨t', es', ht', hout, hedges⟩ := hp.settled m u hsame hwait
    refine ⟨t', es', ht', ?_, fun m' hm' => ?_⟩
    · rw [houts, ExtTreeMap.getElem?_insert, if_neg hne, hout]
    · obtain ⟨v, hv, hbelow⟩ := hedges m' hm'
      obtain ⟨v', hv', hbelow'⟩ := hfed.grown m' v hv
      exact ⟨v', hv', hbelow.trans hbelow'⟩

theorem visit (hf : f.Fits k.types (k.signaturesFor f)) (hall : p.All (k.Located f))
    (hp : p.Sound k f r entry s₀) (hl : l ∈ p.waiting) (hrun : k.visit f r p l = .ok p') :
    p'.Sound k f r entry s₀ := by
  obtain ⟨s, t, es, b, hs, ht, hb, hfed⟩ := visit_fed hf hall hrun
  have hgrown : ∀ m ∈ p.inStates, m ∈ p'.inStates := by
    intro m hm
    obtain ⟨u, hu⟩ := mem_inStates_iff.mp hm
    obtain ⟨u', hu', -⟩ := hfed.grown m u hu
    exact mem_inStates_iff.mpr ⟨u', hu'⟩
  refine ⟨?_, ?_, ?_, fun m u hu hm => hp.settled_visit hs ht hb hfed hu hm, ?_⟩
  · obtain ⟨u, hu, hbelow⟩ := hp.entered
    obtain ⟨u', hu', hbelow'⟩ := hfed.grown entry u hu
    exact ⟨u', hu', hbelow.trans hbelow'⟩
  · intro m hm
    rcases hfed.known m hm with hm | hm
    · exact hgrown m (hp.waiting m (ExtTreeSet.mem_of_mem_erase hm))
    · exact hm
  · intro m hm
    have houts : p'.outStates = p.outStates.insert l t := hfed.outStates
    rw [houts, ExtTreeMap.mem_insert, LawfulEqCmp.compare_eq_iff_eq] at hm
    rcases hm with rfl | hm
    · exact hgrown l (mem_inStates_iff.mpr ⟨s, hs⟩)
    · exact hgrown m (hp.outStates m hm)
  · have hsize : (p.leave l t).waiting.size + 1 = p.waiting.size := Names.size_erase_add_one hl
    have hbudget : (p.leave l t).budget f (f.vocabulary k.types) =
        p.budget f (f.vocabulary k.types) := rfl
    have hvisits : p'.visits = p.visits + 1 := hfed.visits
    have hpaid := hfed.paid
    have hbefore := hp.paid
    omega

end Progress.Sound

variable {order : List String} {n : Nat} {q : Progress}

/-- What every visit of a waiting block keeps holds at the end. -/
theorem visitAll_induction {P : Progress → Prop}
    (hstep : ∀ p l p', P p → l ∈ p.waiting → k.visit f r p l = .ok p' → P p') (hp : P p)
    (hrun : k.visitAll f r order n p = .ok q) : P q := by
  induction n generalizing p with
  | zero =>
    cases hrun
    exact hp
  | succ n ih =>
    rw [visitAll] at hrun
    cases hnext : order.find? p.waiting.contains with
    | none =>
      rw [hnext] at hrun
      cases hrun
      exact hp
    | some l =>
      rw [hnext] at hrun
      obtain ⟨p', hvisit, hrun⟩ := Except.bind_inv hrun
      have hl : l ∈ p.waiting := ExtTreeSet.contains_iff_mem.mp (List.find?_some hnext)
      exact ih (hstep p l p' hp hl hvisit) hrun

theorem visits_visit (hrun : k.visit f r p l = .ok p') : p'.visits = p.visits + 1 := by
  obtain ⟨s, t, es, b, -, -, -, rfl⟩ := visit_iff.mp hrun
  have hone : ∀ (q : Progress) (m : String), (flowInto r t q m).visits = q.visits := by
    intro q m
    rcases flowInto_cases r t q m with ⟨_, _, _, heq⟩ | ⟨_, heq⟩ | ⟨_, _, _, heq⟩ <;>
      rw [heq] <;> rfl
  exact List.foldlRecOn (motive := fun q : Progress => q.visits = p.visits + 1) b.successors _ rfl
    fun q hq m _ => (hone q m).trans hq

/-- Visits stop because no block waits or because as many as allowed were made. In the first case
more of them change nothing. -/
theorem visitAll_stops (hrun : k.visitAll f r order n p = .ok q) :
    (∀ l ∈ order, l ∉ q.waiting) ∧ (∀ n', n ≤ n' → k.visitAll f r order n' p = .ok q) ∨
    q.visits = p.visits + n := by
  induction n generalizing p with
  | zero =>
    cases hrun
    exact Or.inr rfl
  | succ n ih =>
    rw [visitAll] at hrun
    cases hnext : order.find? p.waiting.contains with
    | none =>
      rw [hnext] at hrun
      cases hrun
      refine Or.inl ⟨fun l hl => ?_, fun n' hn' => ?_⟩
      · simpa using List.find?_eq_none.mp hnext l hl
      · obtain ⟨n', rfl⟩ : ∃ j, n' = j + 1 := ⟨n' - 1, by omega⟩
        simp only [visitAll, hnext]
    | some l =>
      rw [hnext] at hrun
      obtain ⟨p', hvisit, hrun⟩ := Except.bind_inv hrun
      rcases ih hrun with ⟨hempty, hmore⟩ | hvisits
      · refine Or.inl ⟨hempty, fun n' hn' => ?_⟩
        obtain ⟨n', rfl⟩ : ∃ j, n' = j + 1 := ⟨n' - 1, by omega⟩
        simp only [visitAll, hnext]
        exact (Except.bind_of_ok hvisit).trans (hmore n' (by omega))
      · refine Or.inr ?_
        rw [hvisits, visits_visit hvisit]
        omega

def Progress.Good (k : Checker) (f : Function) (r : Regions) (entry : String) (s₀ : FlowState)
    (p : Progress) : Prop :=
  p.All (k.Located f) ∧ p.Sound k f r entry s₀

theorem Progress.Good.visit (hf : f.Fits k.types (k.signaturesFor f)) (hp : p.Good k f r entry s₀)
    (hl : l ∈ p.waiting) (hrun : k.visit f r p l = .ok p') : p'.Good k f r entry s₀ :=
  ⟨visit_all (located_invariant hf) hp.1 hrun, hp.2.visit hf hp.1 hl hrun⟩

theorem Progress.Good.visits_add_le (hp : p.Good k f r entry s₀) :
    p.visits + p.waiting.size ≤ f.blocks.size * (height f + 1) := by
  have hpaid := hp.2.paid
  have hbudget := Progress.budget_le f (f.vocabulary k.types) p
  have hheight : f.blocks.size * ((f.vocabulary k.types).facts.length + 1) ≤
      f.blocks.size * (height f + 1) :=
    Nat.mul_le_mul_left _ (Nat.succ_le_succ (Function.length_facts_le_height f k.types))
  omega

theorem visit_total (ht : k.TypesGrounded f) (hf : f.Fits k.types (k.signaturesFor f))
    (hp : p.Good k f r entry s₀) (hl : l ∈ p.waiting) : ∃ p', k.visit f r p l = .ok p' := by
  obtain ⟨s, hs⟩ := mem_inStates_iff.mp (hp.2.waiting l hl)
  obtain ⟨hreach, hinside⟩ := hp.1 l s hs
  obtain ⟨b, hb⟩ := hf.reachable hreach
  obtain ⟨t, es, ht⟩ := transferBlock_total (r := r) ht hf hb hinside
  exact ⟨_, visit_iff.mpr ⟨s, t, es, b, hs, ht, hb, rfl⟩⟩

theorem visitAll_total (ht : k.TypesGrounded f) (hf : f.Fits k.types (k.signaturesFor f))
    (hp : p.Good k f r entry s₀) : ∃ q, k.visitAll f r order n p = .ok q := by
  induction n generalizing p with
  | zero => exact ⟨p, rfl⟩
  | succ n ih =>
    rw [visitAll]
    cases hnext : order.find? p.waiting.contains with
    | none => exact ⟨p, rfl⟩
    | some l =>
      have hl : l ∈ p.waiting := ExtTreeSet.contains_iff_mem.mp (List.find?_some hnext)
      obtain ⟨p', hvisit⟩ := visit_total ht hf hp hl
      obtain ⟨q, hq⟩ := ih (hp.visit hf hl hvisit)
      exact ⟨q, (Except.bind_of_ok hvisit).trans hq⟩

def Progress.start (entry : String) (s : FlowState) : Progress :=
  { inStates := (∅ : NameMap FlowState).insert entry s, waiting := {entry} }

theorem Progress.start_eq_learn (entry : String) (s : FlowState) :
    start entry s = learn { inStates := ∅, waiting := ∅ } entry s := rfl

theorem Progress.start_all {Q : String → FlowState → Prop} {s : FlowState} (hs : Q entry s) :
    (start entry s).All Q := by
  rw [start_eq_learn]
  refine All.learn (fun l t ht => ?_) hs
  simp at ht

theorem Progress.start_good (he : f.entryLabel = some entry) (hin : entry ∈ f.blocks.names)
    (hs : k.entryState f = .ok s₀) : (start entry s₀).Good k f r entry s₀ := by
  have hentry : (start entry s₀).inStates[entry]? = some s₀ := by simp [start]
  have hwait : ∀ l, l ∈ (start entry s₀).waiting ↔ entry = l := by simp [start]
  have hknown : ∀ l, l ∈ (start entry s₀).inStates ↔ entry = l := by simp [start]
  refine ⟨start_all ⟨⟨entry, he, .refl⟩, entryState_inside hs⟩, ⟨s₀, hentry, .refl s₀⟩,
    ?_, ?_, ?_, ?_⟩
  · exact fun l hl => (hknown l).mpr ((hwait l).mp hl)
  · intro l hl
    simp [start] at hl
  · intro l s hl hn
    exact absurd ((hwait l).mpr ((hknown l).mp (mem_inStates_iff.mpr ⟨s, hl⟩))) hn
  · have hsize : (start entry s₀).waiting.size ≤ 1 := ExtTreeSet.size_insert_le
    have hvisits : (start entry s₀).visits = 0 := rfl
    have hcharge : charge (f.vocabulary k.types) { inStates := ∅, waiting := ∅ } entry <
        s₀.weight (f.vocabulary k.types) + 1 := by
      simp [charge]
    have hbudget := budget_learn_lt hin hcharge
    rw [← start_eq_learn] at hbudget
    omega

variable {a : Analysis}

/-- The analysis visits blocks from the start until none waits. -/
theorem analyze_eq_visits (hf : WellFormed.checkFunction f k.types (k.signaturesFor f) = .ok ())
    (hr : Regions.compute f k.types k.policy = .ok r) {rest : List String}
    (horder : f.reversePostorder = .ok (entry :: rest)) :
    k.analyze f = (do
      let s ← k.entryState f
      let p ← k.visitAll f r (entry :: rest) (visitBound f) (.start entry s)
      return ⟨f, entry :: rest, p.inStates, p.outStates, r, p.visits⟩) := by
  rw [analyze]
  exact (Except.bind_of_ok hf).trans ((Except.bind_of_ok horder).trans (Except.bind_of_ok hr))

theorem analyze_iff (hf : WellFormed.checkFunction f k.types (k.signaturesFor f) = .ok ())
    (hr : Regions.compute f k.types k.policy = .ok r) {rest : List String}
    (horder : f.reversePostorder = .ok (entry :: rest)) :
    k.analyze f = .ok a ↔ ∃ s p, k.entryState f = .ok s ∧
      k.visitAll f r (entry :: rest) (visitBound f) (.start entry s) = .ok p ∧
      a = ⟨f, entry :: rest, p.inStates, p.outStates, r, p.visits⟩ := by
  rw [analyze_eq_visits hf hr horder]
  constructor
  · intro h
    obtain ⟨s, hs, h⟩ := Except.bind_inv h
    obtain ⟨p, hp, h⟩ := Except.bind_inv h
    cases h
    exact ⟨s, p, hs, hp, rfl⟩
  · rintro ⟨s, p, hs, hp, rfl⟩
    exact (Except.bind_of_ok hs).trans (Except.bind_of_ok hp)

/-- Where no block waits, the blocks with a state are the reachable ones. -/
theorem Progress.Good.mem_inStates_iff_reachable (he : f.entryLabel = some entry)
    (hp : p.Good k f r entry s₀) (hempty : ∀ l, l ∉ p.waiting) :
    l ∈ p.inStates ↔ f.Reachable l := by
  obtain ⟨hall, hsound⟩ := hp
  constructor
  · intro hl
    obtain ⟨s, hl⟩ := mem_inStates_iff.mp hl
    exact (hall l s hl).1
  · rintro ⟨entry', he', hsteps⟩
    cases he.symm.trans he'
    induction hsteps with
    | refl =>
      obtain ⟨s, hl, -⟩ := hsound.entered
      exact mem_inStates_iff.mpr ⟨s, hl⟩
    | tail _ hedge ih =>
      obtain ⟨s, hl⟩ := mem_inStates_iff.mp ih
      obtain ⟨t, es, -, -, hedges⟩ := hsound.settled _ s hl (hempty _)
      obtain ⟨s', hs', -⟩ := hedges _ hedge
      exact mem_inStates_iff.mpr ⟨s', hs'⟩

/-- When no block waits, what is known solves the flow equations. -/
theorem Progress.Good.solves {rest : List String}
    (horder : f.reversePostorder = .ok (entry :: rest)) (he : f.entryLabel = some entry)
    (hs : k.entryState f = .ok s₀) (hp : p.Good k f r entry s₀) (hempty : ∀ l, l ∉ p.waiting) :
    Analysis.Solves k f r ⟨f, entry :: rest, p.inStates, p.outStates, r, p.visits⟩ := by
  have hin : ∀ l, l ∈ p.inStates ↔ f.Reachable l := fun l => hp.mem_inStates_iff_reachable he hempty
  obtain ⟨-, hsound⟩ := hp
  have hsettled := fun l s hl => hsound.settled l s hl (hempty l)
  have hout : ∀ (l : String) (t : FlowState), p.outStates[l]? = some t →
      ∃ s es, p.inStates[l]? = some s ∧ k.transferBlock f r l s = .ok (t, es) ∧
        ∀ m, f.Edge l m → ∃ s', p.inStates[m]? = some s' ∧ Below (enter r t m) s' := by
    intro l t hl
    have hmem : l ∈ p.outStates := ExtTreeMap.mem_iff_isSome_getElem?.mpr (by rw [hl]; rfl)
    obtain ⟨s, hs⟩ := mem_inStates_iff.mp (hsound.outStates l hmem)
    obtain ⟨t', es, ht, hl', hedges⟩ := hsettled l s hs
    cases hl.symm.trans hl'
    exact ⟨s, es, hs, ht, hedges⟩
  refine ⟨rfl, rfl, horder, hin,
    fun l => ⟨fun hl => (hin l).mp (hsound.outStates l hl), fun hl => ?_⟩, ?_, ?_, ?_⟩
  · obtain ⟨s, hs⟩ := mem_inStates_iff.mp ((hin l).mpr hl)
    obtain ⟨t, es, -, ht, -⟩ := hsettled l s hs
    exact ExtTreeMap.mem_iff_isSome_getElem?.mpr (by rw [ht]; rfl)
  · intro l s hl
    obtain ⟨t, es, ht, hl', -⟩ := hsettled l s hl
    exact ⟨t, es, ht, hl'⟩
  · intro l s hl hs'
    cases he.symm.trans hl
    cases hs.symm.trans hs'
    obtain ⟨u, hu, hbelow⟩ := hsound.entered
    exact ⟨u, hu, FlowState.merge_agrees_iff.mpr hbelow⟩
  · intro l m t hl hedge
    obtain ⟨s, es, -, -, hedges⟩ := hout l t hl
    obtain ⟨u, hu, hbelow⟩ := hedges m hedge
    exact ⟨u, hu, FlowState.merge_agrees_iff.mpr hbelow⟩

theorem entry_mem_names (hf : f.Fits k.types (k.signaturesFor f)) (he : f.entryLabel = some entry) :
    entry ∈ f.blocks.names := by
  obtain ⟨b, hb⟩ := hf.reachable ⟨entry, he, .refl⟩
  exact Registry.contains_iff_mem_names.mp (Registry.contains_iff_get?.mpr ⟨b, hb⟩)

section
variable (hf : WellFormed.checkFunction f k.types (k.signaturesFor f) = .ok ())
variable (hr : Regions.compute f k.types k.policy = .ok r)
include hf hr

theorem analyze_total (ht : k.TypesGrounded f) : ∃ a, k.analyze f = .ok a := by
  have hfits := WellFormed.checkFunction_inv hf
  obtain ⟨entry, rest, horder, he, -, -⟩ := Function.reversePostorder_spec hfits
  obtain ⟨s, hs⟩ := entryState_total ht hfits
  have hstart : (Progress.start entry s).Good k f r entry s :=
    Progress.start_good he (entry_mem_names hfits he) hs
  obtain ⟨p, hp⟩ : ∃ p, k.visitAll f r (entry :: rest) (visitBound f) (.start entry s) = .ok p :=
    visitAll_total ht hfits hstart
  exact ⟨_, (analyze_iff hf hr horder).mpr ⟨s, p, hs, hp, rfl⟩⟩

/-- The visits end with no block waiting before their number is used up. -/
theorem analyze_drained (ha : k.analyze f = .ok a) :
    ∃ entry rest s p, f.reversePostorder = .ok (entry :: rest) ∧
    f.entryLabel = some entry ∧ k.entryState f = .ok s ∧ p.Good k f r entry s ∧
    (∀ l, l ∉ p.waiting) ∧
    p.visits < visitBound f ∧ a = ⟨f, entry :: rest, p.inStates, p.outStates, r, p.visits⟩ ∧
    ∀ n, visitBound f ≤ n → k.visitAll f r (entry :: rest) n (.start entry s) = .ok p := by
  have hfits := WellFormed.checkFunction_inv hf
  obtain ⟨entry, rest, horder, he, -, hmem⟩ := Function.reversePostorder_spec hfits
  obtain ⟨s, p, hs, hp, rfl⟩ := (analyze_iff hf hr horder).mp ha
  have hgood : p.Good k f r entry s :=
    visitAll_induction (fun _ _ _ hq hl hrun => hq.visit hfits hl hrun)
      (Progress.start_good he (entry_mem_names hfits he) hs) hp
  have hbound := hgood.visits_add_le
  have hvisits : p.visits < visitBound f := by
    rw [visitBound]
    omega
  rcases visitAll_stops hp with ⟨hempty, hmore⟩ | hmany
  · refine ⟨entry, rest, s, p, horder, he, hs, hgood, fun l hl => ?_, hvisits, rfl, hmore⟩
    obtain ⟨u, hu⟩ := mem_inStates_iff.mp (hgood.2.waiting l hl)
    exact hempty l ((hmem l).mpr (hgood.1 l u hu).1) hl
  · have hzero : (Progress.start entry s).visits = 0 := rfl
    omega

theorem analyze_solves (ha : k.analyze f = .ok a) : a.Solves k f r := by
  obtain ⟨entry, rest, s, p, horder, he, hs, hgood, hempty, -, rfl, -⟩ := analyze_drained hf hr ha
  exact hgood.solves horder he hs hempty

/-- What blocks and joins keep holds of every state the analysis finds. -/
theorem analyze_invariant {Q : String → FlowState → Prop} (hQ : k.Invariant f r Q)
    (ha : k.analyze f = .ok a) {s : FlowState} (hs : a.inStates[l]? = some s) : Q l s := by
  obtain ⟨entry, rest, horder, he, -, -⟩ :=
    Function.reversePostorder_spec (WellFormed.checkFunction_inv hf)
  obtain ⟨s₀, p, hs₀, hp, rfl⟩ := (analyze_iff hf hr horder).mp ha
  have hall : p.All Q :=
    visitAll_induction (fun _ _ _ hq _ hrun => visit_all hQ hq hrun)
      (Progress.start_all (hQ.entry entry s₀ he hs₀)) hp
  exact hall l s hs

end

/-- The analysis of a well-formed function ends with no block waiting, in a solution of the flow
equations. It makes fewer visits than it may, and more would change nothing. It has a result where
the types are there with all they are made of. -/
theorem analyze_ends_in_solution
    (hf : WellFormed.checkFunction f k.types (k.signaturesFor f) = .ok ())
    (hr : Regions.compute f k.types k.policy = .ok r) :
    (k.TypesGrounded f → ∃ a, k.analyze f = .ok a) ∧
    ∀ a, k.analyze f = .ok a → a.Solves k f r ∧ a.visits < visitBound f ∧
      ∃ entry rest s p, a.order = entry :: rest ∧ k.entryState f = .ok s ∧ p.waiting = ∅ ∧
        a.inStates = p.inStates ∧ a.outStates = p.outStates ∧ a.visits = p.visits ∧
        ∀ n, visitBound f ≤ n → k.visitAll f r a.order n (.start entry s) = .ok p := by
  refine ⟨analyze_total hf hr, fun a ha => ⟨analyze_solves hf hr ha, ?_⟩⟩
  obtain ⟨entry, rest, s, p, -, -, hs, -, hempty, hvisits, rfl, hmore⟩ := analyze_drained hf hr ha
  have hnone : p.waiting = ∅ := ExtTreeSet.eq_empty_iff_forall_not_mem.mpr hempty
  exact ⟨hvisits, entry, rest, s, p, rfl, hs, hnone, rfl, rfl, rfl, hmore⟩

end Checker

def TypeTable.basic : TypeTable := ⟨[.scalar "Int", .ref 1 false none, .string]⟩

theorem TypeTable.basic_cases {id : TypeId} {d : TypeDef} (h : basic.fetch id = .ok d) :
    id = 1 ∧ d = .scalar "Int" ∨ id = 2 ∧ d = .ref 1 false none ∨ id = 3 ∧ d = .string := by
  have hid : id ∈ [1, 2, 3] := mem_ids_of_defines ⟨d, h⟩
  simp only [List.mem_cons, List.not_mem_nil, or_false] at hid
  rcases hid with rfl | rfl | rfl <;> cases h
  · exact Or.inl ⟨rfl, rfl⟩
  · exact Or.inr (Or.inl ⟨rfl, rfl⟩)
  · exact Or.inr (Or.inr ⟨rfl, rfl⟩)

theorem TypeTable.basic_closed : basic.Closed where
  members id d h m hm := by
    rcases basic_cases h with ⟨-, rfl⟩ | ⟨-, rfl⟩ | ⟨-, rfl⟩
    · cases hm
    · rw [List.mem_singleton.mp hm]
      exact ⟨_, rfl⟩
    · cases hm
  founded id h := by
    have hstep : ∀ a b, basic.Wraps a b → b < a := by
      rintro a b (⟨exclusive, lifetime, h⟩ | h)
      · rcases basic_cases h with ⟨-, h⟩ | ⟨rfl, h⟩ | ⟨-, h⟩ <;> cases h
        decide
      · rcases basic_cases h with ⟨-, h⟩ | ⟨-, h⟩ | ⟨-, h⟩ <;> cases h
    have hdown : ∀ b, Relation.TransGen basic.Wraps id b → b < id := by
      intro b hb
      induction hb with
      | single h => exact hstep _ _ h
      | tail _ h ih => exact Int.lt_trans (hstep _ _ h) ih
    exact absurd (hdown id h) (Int.lt_irrefl id)

namespace Function

def ofParts (name : String) (bindings : List Binding) (blocks : List Block) : Function :=
  blocks.foldl addBlock (bindings.foldl addBinding (ofSignature { name }))

def lendingLoop : Function :=
  ofParts "lendingLoop" [{ name := "x", type := 1 }, { name := "r", type := 2 }]
    [{ label := "entry", body := [{ op := .init "x" none }],
       ending := some { terminator := .jump "head" } },
     { label := "head", body := [{ op := .borrow "x" .shared "r" }, { op := .use "r" }],
       ending := some { terminator := .branch "head" "done" none } },
     { label := "done", ending := some { terminator := .ret none } }]

end Function

namespace Checker

def basic : Checker := { types := .basic }

theorem typesGrounded_basic {f : Function} (hb : ∀ b ∈ f.bindings.entries, b.type ∈ [1, 2, 3])
    (hs : f.signature.params = [] ∧ f.signature.returns = none) : basic.TypesGrounded f where
  bindings b hmem := TypeTable.basic_closed.grounded (TypeTable.defines_of_mem_ids (hb b hmem))
  params p hp := by
    rw [hs.1] at hp
    cases hp
  signatures s hmem := by
    have hsig : s = f.signature := List.mem_singleton.mp (show s ∈ [f.signature] from hmem)
    subst hsig
    refine ⟨?_, ?_⟩
    · rw [hs.1]
      simp
    · rw [hs.2]
      simp

theorem lendingLoop_typesGrounded : basic.TypesGrounded .lendingLoop :=
  typesGrounded_basic (by decide) (by decide)

/-- The loop that lends is analysed, and the result solves its flow equations. -/
theorem analyze_lendingLoop_solves : ∃ r a, Regions.compute .lendingLoop .basic .lastUse = .ok r ∧
    basic.analyze .lendingLoop = .ok a ∧ a.Solves basic .lendingLoop r ∧
    a.visits < visitBound .lendingLoop := by
  have hf : WellFormed.checkFunction .lendingLoop basic.types (basic.signaturesFor .lendingLoop) =
      .ok () := by decide
  obtain ⟨r, hr⟩ : ∃ r, Regions.compute .lendingLoop basic.types basic.policy = .ok r :=
    Except.exists_of_isOk (by decide +kernel)
  obtain ⟨htotal, hends⟩ := analyze_ends_in_solution hf hr
  obtain ⟨a, ha⟩ := htotal lendingLoop_typesGrounded
  obtain ⟨hsolves, hvisits, -⟩ := hends a ha
  exact ⟨r, a, hr, ha, hsolves, hvisits⟩

end Checker

def TypeTable.torn : TypeTable := ⟨[.struct "Torn" [("part", 9)] false]⟩

def Function.tornLoop : Function :=
  ofParts "tornLoop" [{ name := "x", type := 1, mutable := true }]
    [{ label := "entry", ending := some { terminator := .jump "head" } },
     { label := "head", body := [{ op := .init "x" none }],
       ending := some { terminator := .branch "head" "done" none } },
     { label := "done", ending := some { terminator := .ret none } }]

namespace Checker

def torn : Checker := { types := .torn }

/-- The loop is well formed and there are regions, but the visit to it asks for the missing type,
and the analysis has no result. -/
theorem tornLoop_unsolved : ∃ r,
    WellFormed.checkFunction .tornLoop torn.types (torn.signaturesFor .tornLoop) = .ok () ∧
    Regions.compute .tornLoop torn.types torn.policy = .ok r ∧
    torn.analyze .tornLoop = .error (.missing (.type 9)) := by
  obtain ⟨r, hr⟩ : ∃ r, Regions.compute .tornLoop torn.types torn.policy = .ok r :=
    Except.exists_of_isOk (by decide +kernel)
  have hfails : (torn.analyze .tornLoop).map (fun _ => ()) = .error (.missing (.type 9)) := by
    decide +kernel
  exact ⟨r, by decide, hr, Except.eq_error_of_map hfails⟩

end Checker

end Ownership

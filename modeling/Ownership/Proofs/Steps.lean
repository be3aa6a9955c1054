import Ownership.Proofs.Path

/-! # Points of a run along a path

A run along a path stands between two operations, before or behind a terminator, or on entry to a
block. What the start has, what each operation and terminator that finds nothing keeps, and what
stays when loans end, holds at every point that a run comes to with nothing found.
-/
namespace Ownership
open Std

theorem Event.found_snoc_eq_nil {es : List Event} {e : Event} :
    found (es ++ [e]) = [] ↔ found es = [] ∧ e.violations = [] := by
  simp

namespace Checker

/-- The run along a path comes to a point of its last block, which stands first. It has left as many
operations of the block behind it as the number says, and also the terminator if the number is
greater than that of the operations. -/
inductive Comes (k : Checker) (f : Function) (r : Regions) :
    List String → Nat → FlowState → List Event → Prop
  | start {l : String} {s : FlowState} (hl : f.entryLabel = some l) (hs : k.entryState f = .ok s) :
      Comes k f r [l] 0 s []
  | op {l : String} {path : List String} {n : Nat} {s t : FlowState} {es : List Event} {b : Block}
      {i : Instruction} {e : Event} (h : Comes k f r (l :: path) n s es)
      (hb : f.blocks.get? l = some b)
      (hi : b.body[n]? = some i)
        (he : (k.applyInstruction r (k.site f r b n i.span) i).run s = .ok e t) :
      Comes k f r (l :: path) (n + 1) t (es ++ [e])
  | ending {l : String} {path : List String} {s t : FlowState} {es : List Event}
      {b : Block} {e : Event} (h : Comes k f r (l :: path) b.body.length s es)
      (hb : f.blocks.get? l = some b)
      (he : (applyEnding r (k.site f r b b.body.length b.endingSpan) b.ending).run s = .ok e t) :
      Comes k f r (l :: path) (b.body.length + 1) t (es ++ [e])
  | enter {l m : String} {path : List String} {s : FlowState} {es : List Event} {b : Block}
      (h : Comes k f r (l :: path) (b.body.length + 1) s es) (hb : f.blocks.get? l = some b)
      (hm : m ∈ b.successors) : Comes k f r (m :: l :: path) 0 (enter r s m) es

variable {k : Checker} {f : Function} {r : Regions} {l : String} {path : List String} {n : Nat}
    {s t : FlowState}
variable {es es' : List Event} {b : Block}

/-- A run comes to a point in one way. -/
theorem Comes.unique {s' : FlowState} (h : k.Comes f r path n s es)
    (h' : k.Comes f r path n s' es') : s' = s ∧ es' = es := by
  induction h generalizing s' es' with
  | start hl hs =>
    cases h' with
    | start hl' hs' => exact ⟨Except.ok.inj (hs'.symm.trans hs), rfl⟩
  | op h hb hi he ih =>
    cases h' with
    | op h' hb' hi' he' =>
      obtain ⟨rfl, rfl⟩ := ih h'
      cases hb.symm.trans hb'
      cases hi.symm.trans hi'
      cases he.symm.trans he'
      exact ⟨rfl, rfl⟩
    | ending h' hb' he' =>
      cases hb.symm.trans hb'
      simp at hi
  | @ending l path s t es b e h hb he ih =>
    generalize hn : b.body.length + 1 = n at h'
    cases h' with
    | start => cases hn
    | enter => cases hn
    | op h' hb' hi' he' =>
      cases hn
      cases hb.symm.trans hb'
      simp at hi'
    | ending h' hb' he' =>
      cases hb.symm.trans hb'
      obtain ⟨rfl, rfl⟩ := ih h'
      cases he.symm.trans he'
      exact ⟨rfl, rfl⟩
  | enter h hb hm ih =>
    cases h' with
    | enter h' hb' hm' =>
      cases hb.symm.trans hb'
      obtain ⟨rfl, rfl⟩ := ih h'
      exact ⟨rfl, rfl⟩

/-- A run goes on through some of the next operations. -/
theorem Comes.ops {before rest : List Instruction} (h : k.Comes f r (l :: path) n s es)
    (hb : f.blocks.get? l = some b) (hbody : b.body.drop n = before ++ rest)
    (hrun : (k.applyOps f r b n before).run s = .ok es' t) :
    k.Comes f r (l :: path) (n + before.length) t (es ++ es') := by
  induction before generalizing n s es es' with
  | nil =>
    obtain ⟨rfl, rfl⟩ := applyOps_nil_iff.mp hrun
    simpa using h
  | cons i before ih =>
    obtain ⟨e, u, es₁, he, hrest, rfl⟩ := applyOps_cons_iff.mp hrun
    have hi : b.body[n]? = some i := by
      rw [← List.head?_drop, hbody]
      rfl
    have hnext : b.body.drop (n + 1) = before ++ rest := by
      rw [← List.tail_drop, hbody]
      rfl
    have hcomes := ih (h.op hb hi he) hnext hrest
    rw [List.append_assoc] at hcomes
    rwa [List.length_cons, Nat.add_comm before.length, ← Nat.add_assoc]

/-- A run goes on through a whole block. -/
theorem Comes.block (h : k.Comes f r (l :: path) 0 s es) (hb : f.blocks.get? l = some b)
    (hrun : k.transferBlock f r l s = .ok (t, es')) :
    k.Comes f r (l :: path) (b.body.length + 1) t (es ++ es') := by
  obtain ⟨b', es₁, u, e, hb', hops, he, rfl⟩ := transferBlock_ops_iff.mp hrun
  cases hb.symm.trans hb'
  have hcomes := h.ops hb (List.append_nil b.body).symm hops
  rw [Nat.zero_add] at hcomes
  have hend := hcomes.ending hb he
  rwa [List.append_assoc] at hend

/-- A run along a path stands on entry to its last block. -/
theorem Arrives.comes (h : k.Arrives f r path s es) : k.Comes f r path 0 s es := by
  induction h with
  | start hl hs => exact .start hl hs
  | step _ ht hm ih =>
    obtain ⟨b, hb, hm⟩ := hm
    exact (ih.block hb ht).enter hb hm

def followTo (k : Checker) (f : Function) (r : Regions) (path : List String) (n : Nat) :
    Except Fault (FlowState × List Event) := do
  let (s, es) ← k.follow f r path
  let b ← f.block (path.headD "")
  match (k.applyOps f r b 0 (b.body.take n)).run s with
  | .ok es' t => return (t, es ++ es')
  | .error e _ => throw e

theorem comes_of_followTo (hpath : f.IsPath (l :: path))
    (h : k.followTo f r (l :: path) n = .ok (s, es)) (hb : f.blocks.get? l = some b)
    (hn : n ≤ b.body.length) : k.Comes f r (l :: path) n s es := by
  obtain ⟨⟨u, es₁⟩, hfollow, h⟩ := Except.bind_inv h
  obtain ⟨b', hb', h⟩ := Except.bind_inv h
  cases hb.symm.trans (Function.block_iff.mp hb')
  split at h
  · rename_i es₂ t hops
    cases h
    have hcomes := (arrives_iff_follow.mpr ⟨hpath, hfollow⟩).comes
    have hdrop : b.body.drop 0 = b.body.take n ++ b.body.drop n :=
      (List.take_append_drop n b.body).symm
    have hto := hcomes.ops hb hdrop hops
    rwa [Nat.zero_add, List.length_take_of_le hn] at hto
  · cases h

/-- The function starts without loans. -/
theorem entryState_loans (h : k.entryState f = .ok s) : ∀ l, l ∉ s.loans := by
  refine Except.foldlM_invariant (P := fun s => ∀ l, l ∉ s.loans) (fun p _ u v hu hrun => ?_)
    (fun l => ExtTreeMap.not_mem_empty) h
  obtain ⟨lt, -, rfl⟩ | ⟨-, ⟨-, rfl⟩ | ⟨-, rfl⟩⟩ := bindParam_inv hrun
  · exact hu
  · exact hu
  · exact hu

structure Kept (k : Checker) (f : Function) (Q : FlowState → Prop) : Prop where
  entry : ∀ s, k.entryState f = .ok s → Q s
  op : ∀ (c : Site) (op : Op) (s t : FlowState), c.function = f → c.types = k.types →
    op.Fits f k.types (k.signaturesFor f) → (k.applyOp c op).run s = .ok [] t → Q s → Q t
  ending : ∀ (c : Site) (terminator : Option Terminator) (s t : FlowState),
    (applyTerminator c terminator).run s = .ok [] t → Q s → Q t
  loans : ∀ (s : FlowState) (p : Loan → Bool), Q s → Q (s.keepLoans p)

/-- Where nothing is found an operation is applied without a complaint, and loans may end behind
it. -/
theorem applyInstruction_clean {c : Site} {i : Instruction} {e : Event}
    (h : (k.applyInstruction r c i).run s = .ok e t) (hes : Event.found (es ++ [e]) = []) :
    Event.found es = [] ∧ ∃ u, (k.applyOp c i.op).run s = .ok [] u ∧
      t = u.keepLoans fun l => r.keepsLoanAfter l.ref c.location.block c.location.index := by
  obtain ⟨vs, u, hop, rfl, rfl⟩ := applyInstruction_iff.mp h
  obtain ⟨hbefore, rfl⟩ := Event.found_snoc_eq_nil.mp hes
  exact ⟨hbefore, u, hop, rfl⟩

theorem applyEnding_clean {c : Site} {ending : Option Ending} {e : Event}
    (h : (applyEnding r c ending).run s = .ok e t) (hes : Event.found (es ++ [e]) = []) :
    Event.found es = [] ∧
      ∃ u, (applyTerminator c (ending.map Ending.terminator)).run s = .ok [] u ∧
        t = u.keepLoans fun l => r.keepsLoanAfter l.ref c.location.block c.location.index := by
  obtain ⟨vs, u, hop, rfl, rfl⟩ := applyEnding_iff.mp h
  obtain ⟨hbefore, rfl⟩ := Event.found_snoc_eq_nil.mp hes
  exact ⟨hbefore, u, hop, rfl⟩

/-- A run with nothing found goes on through an operation that finds nothing wrong. -/
theorem Comes.op_clean {i : Instruction} {u : FlowState} (h : k.Comes f r (l :: path) n s es)
    (hes : Event.found es = []) (hb : f.blocks.get? l = some b) (hi : b.body[n]? = some i)
    (hop : (k.applyOp (k.site f r b n i.span) i.op).run s = .ok [] u) :
    ∃ es', Event.found es' = [] ∧
      k.Comes f r (l :: path) (n + 1) (u.keepLoans fun m => r.keepsLoanAfter m.ref b.label n) es' :=
  ⟨_, Event.found_snoc_eq_nil.mpr ⟨hes, rfl⟩,
    h.op hb hi (applyInstruction_iff.mpr ⟨[], u, hop, rfl, rfl⟩)⟩

theorem Comes.ending_clean {u : FlowState} (h : k.Comes f r (l :: path) b.body.length s es)
    (hes : Event.found es = []) (hb : f.blocks.get? l = some b)
    (hop : (applyTerminator (k.site f r b b.body.length b.endingSpan)
      (b.ending.map Ending.terminator)).run s =
      .ok [] u) : ∃ es', Event.found es' = [] ∧ k.Comes f r (l :: path) (b.body.length + 1)
        (u.keepLoans fun m => r.keepsLoanAfter m.ref b.label b.body.length) es' :=
  ⟨_, Event.found_snoc_eq_nil.mpr ⟨hes, rfl⟩,
    h.ending hb (applyEnding_iff.mpr ⟨[], u, hop, rfl, rfl⟩)⟩

theorem Comes.kept {Q : FlowState → Prop} (hQ : k.Kept f Q)
    (hf : f.Fits k.types (k.signaturesFor f)) (h : k.Comes f r path n s es)
    (hes : Event.found es = []) : Q s := by
  induction h with
  | start hl hs => exact hQ.entry _ hs
  | op _ hb hi he ih =>
    obtain ⟨hes, u, hop, rfl⟩ := applyInstruction_clean he hes
    have hfit := (hf.block hb).body _ (List.mem_of_getElem? hi)
    exact hQ.loans _ _ (hQ.op _ _ _ _ rfl rfl hfit hop (ih hes))
  | ending _ hb he ih =>
    obtain ⟨hes, u, hop, rfl⟩ := applyEnding_clean he hes
    exact hQ.loans _ _ (hQ.ending _ _ _ _ hop (ih hes))
  | enter _ hb hm ih => exact hQ.loans _ _ (ih hes)

end Checker

end Ownership

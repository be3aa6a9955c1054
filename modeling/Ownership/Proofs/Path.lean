import Ownership.Proofs.Fixpoint

/-! # Runs along one path

A run along a path through a function starts from the state on entry and goes on block by block,
with no joins. It collects what happens in the blocks it leaves.
-/
namespace Ownership
open Std

def Event.found (es : List Event) : List (Location × Violation) :=
  es.flatMap fun e => e.violations.map fun v => (e.location, v)

namespace Event
variable {e : Event} {es es' : List Event}

@[simp] theorem found_nil : found [] = [] := rfl

@[simp] theorem found_cons :
    found (e :: es) = e.violations.map (fun v => (e.location, v)) ++ found es := rfl

@[simp] theorem found_append : found (es ++ es') = found es ++ found es' := List.flatMap_append

theorem found_eq_nil : found es = [] ↔ ∀ e ∈ es, e.violations = [] := by
  simp [found, List.flatMap_eq_nil_iff]

end Event

/-- Blocks that control may go through one after the other from the entry, the last one first. -/
def Function.IsPath (f : Function) (path : List String) : Prop :=
  path.IsChain (fun m l => f.Edge l m) ∧ path ≠ [] ∧ path.getLast? = f.entryLabel

theorem Function.IsPath.singleton {f : Function} {l : String} (hl : f.entryLabel = some l) :
    f.IsPath [l] :=
  ⟨.singleton l, by simp, hl.symm⟩

theorem Function.IsPath.cons {f : Function} {l m : String} {path : List String}
    (h : f.IsPath (l :: path)) (hm : f.Edge l m) : f.IsPath (m :: l :: path) :=
  ⟨.cons_cons hm h.1, by simp, by rw [List.getLast?_cons_cons, h.2.2]⟩

namespace Checker

/-- The run along a path comes to the last block of it, which stands first, with a state and the
events of the blocks before. -/
inductive Arrives (k : Checker) (f : Function) (r : Regions) :
    List String → FlowState → List Event → Prop
  | start {l : String} {s : FlowState} (hl : f.entryLabel = some l) (hs : k.entryState f = .ok s) :
      Arrives k f r [l] s []
  | step {l m : String} {path : List String} {s t : FlowState} {es es' : List Event}
      (h : Arrives k f r (l :: path) s es) (ht : k.transferBlock f r l s = .ok (t, es'))
      (hm : f.Edge l m) :
      Arrives k f r (m :: l :: path) (enter r t m) (es ++ es')

variable {k : Checker} {f : Function} {r : Regions} {l : String} {path : List String}
    {s : FlowState} {es : List Event}

/-- What holds at the start and is kept by blocks holds at the end of every run along a path. -/
theorem Arrives.invariant {Q : String → FlowState → Prop} (hQ : k.Invariant f r Q)
    (h : k.Arrives f r (l :: path) s es) : Q l s := by
  generalize hp : l :: path = p at h
  induction h generalizing l path with
  | start hl hs =>
    cases hp
    exact hQ.entry _ _ hl hs
  | step _ ht hm ih =>
    cases hp
    exact hQ.step _ _ _ _ _ (ih rfl) ht hm

theorem Arrives.isPath (h : k.Arrives f r path s es) : f.IsPath path := by
  induction h with
  | start hl hs => exact .singleton hl
  | step _ _ hm ih => exact ih.cons hm

def follow (k : Checker) (f : Function) (r : Regions) :
    List String → Except Fault (FlowState × List Event)
  | [] => .error .endless
  | [_] => return (← k.entryState f, [])
  | m :: l :: path => do
    let (s, es) ← k.follow f r (l :: path)
    let (t, es') ← k.transferBlock f r l s
    return (enter r t m, es ++ es')

/-- There is at most one run along a path. -/
theorem arrives_iff_follow :
    k.Arrives f r path s es ↔ f.IsPath path ∧ k.follow f r path = .ok (s, es) := by
  constructor
  · intro h
    refine ⟨h.isPath, ?_⟩
    induction h with
    | start hl hs => exact Except.bind_of_ok hs
    | step _ ht hm ih => exact (Except.bind_of_ok ih).trans (Except.bind_of_ok ht)
  · rintro ⟨⟨hchain, hne, hlast⟩, hrun⟩
    induction hchain generalizing s es with
    | nil => exact absurd rfl hne
    | singleton l =>
      obtain ⟨s, hs, hrun⟩ := Except.bind_inv hrun
      cases hrun
      exact .start hlast.symm hs
    | cons_cons hm _ ih =>
      obtain ⟨⟨s, es⟩, hfollow, hrun⟩ := Except.bind_inv hrun
      obtain ⟨⟨t, es'⟩, ht, hrun⟩ := Except.bind_inv hrun
      cases hrun
      exact .step (ih hfollow (by simp) (by rwa [List.getLast?_cons_cons] at hlast)) ht hm

section
variable (ht : k.TypesGrounded f) (hf : f.Fits k.types (k.signaturesFor f))
include ht hf

/-- A run along a path gets through the block it has come to. -/
theorem Arrives.transferBlock_total (h : k.Arrives f r (l :: path) s es) :
    ∃ t es', k.transferBlock f r l s = .ok (t, es') := by
  obtain ⟨hreach, hinside⟩ := h.invariant (located_invariant hf)
  obtain ⟨b, hb⟩ := hf.reachable hreach
  exact Checker.transferBlock_total ht hf hb hinside

/-- There is a run along every path. -/
theorem exists_arrives (hpath : f.IsPath path) : ∃ s es, k.Arrives f r path s es := by
  obtain ⟨hchain, hne, hlast⟩ := hpath
  induction hchain with
  | nil => exact absurd rfl hne
  | singleton l =>
    obtain ⟨s, hs⟩ := entryState_total ht hf
    exact ⟨s, [], .start hlast.symm hs⟩
  | cons_cons hm _ ih =>
    obtain ⟨s, es, h⟩ := ih (by simp) (by rwa [List.getLast?_cons_cons] at hlast)
    obtain ⟨t, es', hrun⟩ := h.transferBlock_total ht hf
    exact ⟨_, _, h.step hrun hm⟩

/-- There is a run along every path, and through its last block. -/
theorem exists_run (hpath : f.IsPath (l :: path)) :
    ∃ s es t es', k.Arrives f r (l :: path) s es ∧ k.transferBlock f r l s = .ok (t, es') := by
  obtain ⟨s, es, harrives⟩ := exists_arrives (r := r) ht hf hpath
  obtain ⟨t, es', hrun⟩ := harrives.transferBlock_total ht hf
  exact ⟨s, es, t, es', harrives, hrun⟩

end

end Checker

end Ownership

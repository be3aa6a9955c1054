import Ownership.Proofs.Covers
import Ownership.Proofs.Path

/-! # Where a binding gets a value

A run that enters a block comes to each operation of it that assigns. It has then applied the
operations before, and it reads the operands; next the target gets the value, if it may.
-/
namespace Ownership
open Std

namespace Checker
open FlowState
variable {k : Checker} {c : Site} {op : Op} {j p u u' : FlowState} {vs : List Violation}

/-- Operands that are read with nothing wrong are so from every state that is allowed for. -/
theorem prepares_covered (h : Covers j p) (hj : k.Prepares c j [] u op)
    (hp : k.Prepares c p vs u' op) : vs = [] ∧ Covers u u' := by
  have htaken : ∀ {source : String} {taken taken' : Option Violation},
      (c.moveOut source).run j = .ok taken u →
      [] = taken.toList → (c.moveOut source).run p = .ok taken' u' → taken'.toList = [] ∧
      Covers u u' := by
    intro source taken taken' hj hnone hp
    cases Option.toList_eq_nil_iff.mp hnone.symm
    obtain ⟨q, hq, hcov, -⟩ := Site.moveOut_covered h hj
    cases hq.symm.trans hp
    exact ⟨rfl, hcov⟩
  cases op with
  | init binding source =>
    cases source with
    | none =>
      obtain ⟨-, rfl⟩ := hj
      obtain ⟨rfl, rfl⟩ := hp
      exact ⟨rfl, h⟩
    | some source =>
      obtain ⟨taken, hj, hnone⟩ := hj
      obtain ⟨taken', hp, rfl⟩ := hp
      exact htaken hj hnone hp
  | move dest source =>
    obtain ⟨taken, hj, hnone⟩ := hj
    obtain ⟨taken', hp, rfl⟩ := hp
    exact htaken hj hnone hp
  | copy dest source =>
    obtain ⟨invalid, hinvalid, hnone, rfl⟩ := hj
    obtain ⟨invalid', hinvalid', rfl, rfl⟩ := hp
    obtain ⟨rfl, hread⟩ := List.append_eq_nil_iff.mp hnone.symm
    have hread := Option.toList_eq_nil_iff.mp hread
    rw [hinvalid'.eq hinvalid, Site.readViolation_covered h hread]
    exact ⟨rfl, h⟩
  | call call =>
    obtain ⟨sig, passed, w, hsig, hpass, hnone, rfl⟩ := hj
    obtain ⟨sig', passed', w', hsig', hpass', rfl, rfl⟩ := hp
    cases hsig.symm.trans hsig'
    obtain ⟨q, hq, hcov⟩ := passAll_covered h _ hpass hnone.symm
    cases hq.symm.trans hpass'
    exact ⟨hnone.symm, hcov.keepLoans _⟩
  | _ => exact hj.elim

end Checker

/-- A place in a function where an operation gives a binding a value. -/
structure Function.Assignment (f : Function) where
  block : Block
  before : List Instruction
  instruction : Instruction
  after : List Instruction
  target : String
  block_eq : f.blocks.get? block.label = some block
  body_eq : block.body = before ++ instruction :: after
  target_eq : instruction.op.assigned? = some target

namespace Function.Assignment
open Checker
variable {k : Checker} {f : Function} {r : Regions} (g : f.Assignment) {s t u : FlowState}
    {es : List Event}

def location : Location := ⟨f.name, g.block.label, g.before.length⟩

def site (k : Checker) (r : Regions) : Site := k.site f r g.block g.before.length g.instruction.span

def give (k : Checker) (r : Regions) : Access (Option Violation) := Site.store (g.site k r) g.target

/-- A run that enters the block with a state comes to the place where the target gets its value:
there were the events of the operations before and the violations of the operands, and they have led
to a state. -/
def Reached (k : Checker) (r : Regions) (s : FlowState) (es : List Event) (vs : List Violation)
    (u : FlowState) : Prop :=
  ∃ t, (k.applyOps f r g.block 0 g.before).run s = .ok es t ∧
    k.Prepares (g.site k r) t vs u g.instruction.op

/-- A run through the block comes to the place, and there the target gets its value or is refused
it. -/
theorem transferBlock_inv (h : k.transferBlock f r g.block.label s = .ok (t, es)) :
    ∃ es₁ vs u refused w e es₂, g.Reached k r s es₁ vs u ∧ (g.give k r).run u = .ok refused w ∧
      es = es₁ ++ e :: es₂ ∧ e.violations = vs ++ refused.toList := by
  obtain ⟨b, hb, hrun⟩ := transferBlock_iff.mp h
  cases hb.symm.trans g.block_eq
  rw [g.body_eq] at hrun
  obtain ⟨es₁, t₁, es', hops, hrest, rfl⟩ := applyFrom_append_iff.mp hrun
  rw [Int.zero_add] at hrest
  obtain ⟨e, t₂, es₂, he, -, rfl⟩ := applyFrom_cons_iff.mp hrest
  obtain ⟨vs, t₃, hop, rfl, -⟩ := applyInstruction_iff.mp he
  obtain ⟨ws, u, refused, w, hprep, hgive, rfl, -⟩ := assigned_inv g.target_eq hop
  exact ⟨es₁, ws, u, refused, w, _, es₂, ⟨t₁, hops, hprep⟩, hgive, rfl, rfl⟩

end Function.Assignment

end Ownership

import Mathlib.Data.List.Flatten
import Ownership.Proofs.Fixpoint
import Ownership.Proofs.PrunedRegions

/-! # Unreachable blocks and the report

The visits never come to an unreachable block, so a function without them is visited in the same
way: each visit leads to the same progress, and so do all of them. The report is then the same,
unless a reference that may hold loans is used in unreachable blocks only. Such a reference gives
its loans back at once, where one without any use keeps them.
-/
namespace Ownership
open Std

namespace Checker
variable {k : Checker} {f : Function} {r r' : Regions} {order : List String} {l : String}

def HeldWhereReached (f : Function) (l : String) (s : FlowState) : Prop :=
  f.Reachable l ∧ s.HeldBy f.DefinedWhereReached

theorem heldWhereReached_invariant (hf : f.Fits k.types (k.signaturesFor f)) :
    k.Invariant f r (HeldWhereReached f) where
  entry l s hl hs := ⟨⟨l, hl, .refl⟩, fun m hm => absurd hm (entryState_loans hs m)⟩
  step l s t es m hs hrun hedge := by
    obtain ⟨hl, hs⟩ := hs
    obtain ⟨b, hb⟩ := hf.reachable hl
    have ht := transferBlock_heldBy hs hb (hl.defines hb) hrun
    exact ⟨hl.step hedge, ht.keepLoans _⟩
  merge l s t hs ht := ⟨hs.1, hs.2.merge ht.2⟩

/-- Where control comes, a function without its unreachable blocks mirrors the whole. -/
theorem mirrors_pruned (hf : f.Fits k.types (k.signaturesFor f))
    (hr : r.AgreeOn f.Reachable f.DefinedWhereReached r') :
    Mirrors f.Reachable f.DefinedWhereReached (· = ·) k k f f.pruned r r' where
  autoBorrow := rfl
  binding _ := .refl (fun _ => ⟨rfl, .refl _ _⟩) _
  size := rfl
  drops _ _ := Iff.rfl
  signature := rfl
  types := .refl _ _
  callee _ := rfl
  calleeTypes _ _ _ := .refl _ _
  same _ := rfl
  regions := hr
  entry l hl := ⟨l, hl, .refl⟩
  block _ hl := Function.get?_pruned hf hl
  next _ _ hl hedge := hl.step hedge
  defs _ _ hl hb := hl.defines hb

/-- From the same progress the same diagnostics are made. -/
theorem diagnose_pruned (hf : f.Fits k.types (k.signaturesFor f))
    (hr : r.AgreeOn f.Reachable f.DefinedWhereReached r') {a : Analysis}
    (hfunction : a.function = f)
    (hregions : a.regions = r) (ha : ∀ l s, a.inStates[l]? = some s → HeldWhereReached f l s) :
    k.diagnose { a with function := f.pruned, regions := r' } = k.diagnose a := by
  have halike := (mirrors_pruned hf hr).diagnose hfunction hregions ha
  exact (halike.mono fun ds ds' hds => Diagnostic.eq_of_like hds).eq

/-- A visit that fails still fails if more visits are allowed. -/
theorem visitAll_error {n n' : Nat} (hn : n ≤ n') {p : Progress} {e : Fault}
    (h : k.visitAll f r order n p = .error e) : k.visitAll f r order n' p = .error e := by
  induction n generalizing n' p with
  | zero => cases h
  | succ n ih =>
    obtain ⟨n', rfl⟩ : ∃ j, n' = j + 1 := ⟨n' - 1, by omega⟩
    rw [visitAll] at h ⊢
    cases hnext : order.find? p.waiting.contains with
    | none =>
      rw [hnext] at h
      cases h
    | some l =>
      rw [hnext] at h
      cases hvisit : k.visit f r p l with
      | error e' =>
        dsimp only at h ⊢
        rw [Except.bind_of_error hvisit] at h ⊢
        exact h
      | ok p' =>
        dsimp only at h ⊢
        rw [Except.bind_of_ok hvisit] at h ⊢
        exact ih (by omega) h

theorem length_instructions_pruned_le : f.pruned.instructions.length ≤ f.instructions.length := by
  have hblocks : List.Sublist f.pruned.blocks.entries f.blocks.entries := List.filter_sublist
  exact (hblocks.flatMap Block.body).length_le

theorem visitBound_pruned_le : visitBound f.pruned ≤ visitBound f := by
  have hsize := Function.size_pruned_le (f := f)
  have hheight : height f.pruned ≤ height f := by
    have hlength := length_instructions_pruned_le (f := f)
    have hbindings : f.pruned.bindings = f.bindings := rfl
    have hsignature : f.pruned.signature = f.signature := rfl
    simp only [height, hbindings, hsignature]
    gcongr
  rw [visitBound, visitBound]
  gcongr

section WellFormed
variable (hf : WellFormed.checkFunction f k.types (k.signaturesFor f) = .ok ())
variable (hr' : Regions.compute f.pruned k.types k.policy = .ok r')
variable (hagree : r.AgreeOn f.Reachable f.DefinedWhereReached r')
include hf hr' hagree

/-- Fewer visits are allowed without the unreachable blocks, but they are enough. -/
theorem visits_pruned {entry : String} {rest : List String}
    (horder : f.reversePostorder = .ok (entry :: rest)) {s : FlowState}
    (hs : k.entryState f = .ok s) :
    k.visitAll f.pruned r' (entry :: rest) (visitBound f.pruned) (.start entry s) =
      k.visitAll f r (entry :: rest) (visitBound f) (.start entry s) := by
  have hfits := WellFormed.checkFunction_inv hf
  have hpruned : WellFormed.checkFunction f.pruned k.types (k.signaturesFor f.pruned) = .ok () :=
    WellFormed.checkFunction_pruned hf
  have horder' := (Function.reversePostorder_pruned hf).trans horder
  have hsame := fun n => (mirrors_pruned hfits hagree).visits hf horder hs n
  -- a visit that fails does so under either bound, and visits that end have used up neither
  cases hrun : k.visitAll f.pruned r' (entry :: rest) (visitBound f.pruned) (.start entry s) with
  | error e =>
    rw [hsame] at hrun
    exact (visitAll_error visitBound_pruned_le hrun).symm
  | ok p =>
    have ha := (analyze_iff hpruned hr' horder').mpr ⟨s, p, hs, hrun, rfl⟩
    obtain ⟨entry', rest', s', p', hentry, -, hstart, -, -, -, -, hmore⟩ :=
      analyze_drained hpruned hr' ha
    cases horder'.symm.trans hentry
    cases hstart.symm.trans hs
    cases hrun.symm.trans (hmore _ (Nat.le_refl _))
    rw [← hsame, hmore _ visitBound_pruned_le]

/-- The analysis is the same but for the function and the references it is about. -/
theorem analyze_pruned (hr : Regions.compute f k.types k.policy = .ok r) :
    k.analyze f.pruned = (k.analyze f).map fun a =>
      { a with function := f.pruned, regions := r' } := by
  have hmirrors := mirrors_pruned (WellFormed.checkFunction_inv hf) hagree
  refine hmirrors.analyze hf (WellFormed.checkFunction_pruned hf) hr hr'
    (Function.reversePostorder_pruned hf) ?_
  intro entry rest s horder hs
  exact visits_pruned hf hr' hagree horder hs

end WellFormed

/-- Without its unreachable blocks a well-formed function has the same report, if loans last to the
end of their scopes or every reference that reachable blocks define is used in one of them, or
nowhere. -/
theorem pruned_reported_alike (hf : WellFormed.checkFunction f k.types (k.signaturesFor f) = .ok ())
    (hr : Regions.compute f k.types k.policy = .ok r)
    (hr' : Regions.compute f.pruned k.types k.policy = .ok r')
    (huse : k.policy = .lexical ∨ f.UsedWhereReached k.types) :
    k.checkFunction f.pruned = k.checkFunction f := by
  have hfits := WellFormed.checkFunction_inv hf
  obtain ⟨hcomputed, hpolicy, -⟩ := Regions.compute_inv hr
  obtain ⟨hcomputed', hpolicy', -⟩ := Regions.compute_inv hr'
  have hagree : r.AgreeOn f.Reachable f.DefinedWhereReached r' :=
    Regions.agreeOn_pruned hfits hcomputed hcomputed' (hpolicy'.trans hpolicy.symm) (hpolicy ▸ huse)
  rw [checkFunction, checkFunction, analyze_pruned hf hr' hagree hr]
  cases ha : k.analyze f with
  | error e => cases e <;> rfl
  | ok a =>
    have hsolves := analyze_solves hf hr ha
    have hheld : ∀ l s, a.inStates[l]? = some s → HeldWhereReached f l s := fun l s =>
      analyze_invariant hf hr (heldWhereReached_invariant hfits) ha
    dsimp only [Except.map]
    rw [diagnose_pruned hfits hagree hsolves.function hsolves.regions hheld]
    rfl

end Checker

namespace Function

/-- A number is changed in each round before the reference to it is used. A block that is never come
to uses the reference and another one of its own, and goes on to the rounds. -/
def besetLoop : Function :=
  ofParts "besetLoop" [{ name := "x", type := 1, mutable := true }, { name := "r", type := 2 },
    { name := "q", type := 2 }]
    [{ label := "entry", body := [{ op := .init "x" none }, { op := .borrow "x" .shared "r" }],
       ending := some { terminator := .jump "round" } },
     { label := "dead",
       body := [{ op := .use "r" }, { op := .borrow "x" .shared "q" }, { op := .use "q" }],
       ending := some { terminator := .jump "round" } },
     { label := "round", body := [{ op := .write "x" none }, { op := .use "r" }],
       ending := some { terminator := .branch "round" "done" none } },
     { label := "done", ending := some { terminator := .ret none } }]

def strandedUse : Function :=
  ofParts "strandedUse" [{ name := "x", type := 1, mutable := true }, { name := "r", type := 2 }]
    [{ label := "entry",
       body := [{ op := .init "x" none }, { op := .borrow "x" .shared "r" },
         { op := .write "x" none }],
       ending := some { terminator := .ret none } },
     { label := "dead", body := [{ op := .use "r" }], ending := some { terminator := .ret none } }]

end Function

namespace Checker

theorem report_of_kinds {k : Checker} {f : Function} {kinds : List DiagnosticKind}
    (h : (do return (← k.checkFunction f).diagnostics.map Diagnostic.kind) = .ok kinds) :
    ∃ report, k.checkFunction f = .ok report ∧ report.diagnostics.map Diagnostic.kind = kinds := by
  obtain ⟨report, hreport, hkinds⟩ := Except.bind_inv h
  exact ⟨report, hreport, Except.ok.inj hkinds⟩

theorem besetLoop_wellFormed :
    WellFormed.checkFunction .besetLoop basic.types (basic.signaturesFor .besetLoop) =
      .ok () := by decide

theorem besetLoop_usedWhereReached : Function.besetLoop.UsedWhereReached basic.types := by
  have hreached : ∀ l, Function.besetLoop.Reachable l ↔ l ∈ ["entry", "round", "done"] := fun l =>
    (Function.mem_reached (WellFormed.checkFunction_inv besetLoop_wellFormed)).symm
  rintro x ⟨b, d, hb, hd, href⟩ ⟨l, block, hl, hblock, i, hi, hx⟩ -
  have hname : b.name = x := Registry.name_of_get?_eq_some hb
  have hmem : b ∈ [{ name := "x", type := 1, mutable := true }, { name := "r", type := 2 },
      { name := "q", type := 2 }] :=
    Registry.mem_of_get?_eq_some hb
  simp only [List.mem_cons, List.not_mem_nil, or_false] at hmem
  rcases hmem with rfl | rfl | rfl
  · cases hd
    cases href
  · subst hname
    exact ⟨⟨⟨"besetLoop", "round", 1⟩, .unknown⟩, by decide, (hreached "round").mpr (by decide)⟩
  · have hdefs : ∀ l ∈ ["entry", "round", "done"], ∀ block ∈ Function.besetLoop.blocks.get? l,
        ∀ i ∈ block.body, "q" ∉ i.op.defs := by decide
    subst hname
    exact absurd hx (hdefs l ((hreached l).mp hl) block hblock i hi)

/-- The loop is reported alike with the block that is never come to and without it: its number is
changed while it is lent. -/
theorem pruned_reported_alike_besetLoop :
    WellFormed.checkFunction .besetLoop basic.types (basic.signaturesFor .besetLoop) = .ok () ∧
    (∃ r, Regions.compute .besetLoop .basic .lastUse = .ok r) ∧
    (∃ r', Regions.compute Function.besetLoop.pruned .basic .lastUse = .ok r') ∧
    Function.besetLoop.UsedWhereReached .basic ∧
    Function.besetLoop.pruned.blocks.names = ["entry", "round", "done"] ∧
    basic.checkFunction Function.besetLoop.pruned = basic.checkFunction .besetLoop ∧
    ∃ report, basic.checkFunction .besetLoop = .ok report ∧
      report.diagnostics.map Diagnostic.kind = [.writeWhileBorrowed] := by
  obtain ⟨r, hr⟩ : ∃ r, Regions.compute .besetLoop basic.types basic.policy = .ok r :=
    Except.exists_of_isOk (by decide +kernel)
  obtain ⟨r', hr'⟩ : ∃ r',
      Regions.compute Function.besetLoop.pruned basic.types basic.policy = .ok r' :=
    Except.exists_of_isOk (by decide +kernel)
  have hsame :=
    pruned_reported_alike besetLoop_wellFormed hr hr' (Or.inr besetLoop_usedWhereReached)
  exact ⟨besetLoop_wellFormed, ⟨r, hr⟩, ⟨r', hr'⟩, besetLoop_usedWhereReached, by decide, hsame,
    report_of_kinds (by decide +kernel)⟩

/-- A use that is never come to has a say in the report: without it the reference has no use, so it
keeps its loan, and the number is changed while it is lent. -/
theorem strandedUse_reported_apart :
    WellFormed.checkFunction .strandedUse basic.types (basic.signaturesFor .strandedUse) = .ok () ∧
    (∃ r, Regions.compute .strandedUse .basic .lastUse = .ok r) ∧
    (∃ r', Regions.compute Function.strandedUse.pruned .basic .lastUse = .ok r') ∧
    (∃ report, basic.checkFunction .strandedUse = .ok report ∧
      report.diagnostics.map Diagnostic.kind = []) ∧
    ∃ report, basic.checkFunction Function.strandedUse.pruned = .ok report ∧
      report.diagnostics.map Diagnostic.kind = [.writeWhileBorrowed] :=
  ⟨by decide, Except.exists_of_isOk (by decide +kernel), Except.exists_of_isOk (by decide +kernel),
    report_of_kinds (by decide +kernel), report_of_kinds (by decide +kernel)⟩

end Checker

end Ownership

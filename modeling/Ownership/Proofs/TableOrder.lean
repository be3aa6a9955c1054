import Ownership.Proofs.Liveness
import Ownership.Proofs.Lookups

/-! # The order of the tables

A function keeps its blocks, bindings and scopes in tables, and their order decides in which order
blocks are swept for live references. The live references are the least solution of equations that
each block gives one of, so every order of sweeps comes to rest there. All else is found by name. So
the analysis does not depend on the order of the tables, and the report does only in its
explanations: which next use of a reference is met first may depend on it.
-/
namespace Ownership
open Std

namespace Registry
variable {α : Type} [Named α] {r r' : Registry α}

theorem get?_of_perm (h : r'.entries.Perm r.entries) (n : String) : r'.get? n = r.get? n := by
  ext a
  rw [get?_eq_some_iff, get?_eq_some_iff, h.mem_iff]

end Registry

/-- A table that already has the entries that a sweep computes is left as it is. -/
theorem sweep_of_solves {α β : Type} [Named β] {entry : NameMap α → β → α} {items : List β}
    {t : NameMap α} (h : ∀ b ∈ items, t[Named.name b]? = some (entry t b)) :
    sweep items entry t = t := by
  induction items with
  | nil => rfl
  | cons b items ih =>
    obtain ⟨hb, hitems⟩ := List.forall_mem_cons.mp h
    have hsame : t.insert (Named.name b) (entry t b) = t := by
      refine ExtTreeMap.ext_getElem? fun {x} => ?_
      rw [ExtTreeMap.getElem?_insert]
      split
      · rename_i heq
        rw [← LawfulEqCmp.eq_of_compare heq, hb]
      · rfl
    exact (congrArg (sweep items entry) hsame).trans (ih hitems)

/-- The live references are the least that solve the equations of all blocks. -/
theorem Liveness.liveIn_least {f : Function} {refs : Names} {live t : NameMap Names}
    (h : liveIn? f refs = some live)
    (ht : ∀ b ∈ f.blocks.entries, t[b.label]? = some (onEntry refs b (out t b))) :
    Included live t := by
  have hround : round f refs t = t := sweep_of_solves fun b hb => ht b (List.mem_reverse.mp hb)
  rw [liveIn?_eq] at h
  refine settled?_induction (P := fun u => Included u t) (fun u hu => ?_) ?_ h
  · rw [← hround]
    exact round_mono hu
  · intro l u hu
    have hl : l ∈ f.blocks.names := by
      have hmem := ExtTreeMap.mem_iff_isSome_getElem?.mpr (Option.isSome_iff_exists.mpr ⟨u, hu⟩)
      simpa using hmem
    obtain ⟨b, hb, rfl⟩ := List.mem_map.mp hl
    cases (getElem?_start hl).symm.trans hu
    exact ⟨_, ht b hb, fun x hx => absurd hx ExtTreeSet.not_mem_empty⟩

namespace Function

structure Reorders (f g : Function) : Prop where
  signature : g.signature = f.signature
  entry : g.entry = f.entry
  bindings : g.bindings.entries.Perm f.bindings.entries
  scopes : g.scopes.entries.Perm f.scopes.entries
  blocks : g.blocks.entries.Perm f.blocks.entries

namespace Reorders
variable {f g : Function} {l : String} (h : f.Reorders g)
include h

theorem encloses : g.Encloses = f.Encloses := by
  funext s x
  simp only [Encloses, h.scopes.mem_iff]

theorem drops (scope x : String) : g.Drops scope x ↔ f.Drops scope x := by
  simp only [Drops, h.bindings.mem_iff, h.encloses]

theorem sameLookups (k : Checker) (hentry : f.entry = some l) : k.SameLookups k f g where
  autoBorrow := rfl
  binding x := by
    rw [binding, binding, Registry.get?_of_perm h.bindings]
    exact .refl (fun _ => ⟨rfl, .refl _ _⟩) _
  size := h.bindings.length_eq
  drops := h.drops
  signature := h.signature
  types := .refl _ _
  callee name := by rw [Checker.signaturesFor, Checker.signaturesFor, h.signature]
  calleeTypes _ _ _ := .refl _ _
  entryLabel := by rw [entryLabel, entryLabel, h.entry, hentry]
  block := Registry.get?_of_perm h.blocks
  blockCount := h.blocks.length_eq
  instructionCount := (h.blocks.flatMap_right Block.body).length_eq
  scope := Registry.get?_of_perm h.scopes
  scopeCount := h.scopes.length_eq

/-- A function stays well formed when its tables are reordered. -/
theorem wellFormed {k : Checker} (hentry : f.entry = some l)
    (hf : WellFormed.checkFunction f k.types (k.signaturesFor f) = .ok ()) :
    WellFormed.checkFunction g k.types (k.signaturesFor g) = .ok () := by
  have hsame := h.sameLookups k hentry
  obtain ⟨hsignature, hstart, hscopes, hbindings, hblocks⟩ := WellFormed.checkFunction_eq_ok.mp hf
  refine WellFormed.checkFunction_eq_ok.mpr ⟨?_, ?_, fun s hs => ?_, fun b hb => ?_, fun b hb => ?_⟩
  · rw [hsame.checkSignature, hsignature]
  · rw [hsame.checkEntry, hstart]
  · rw [hsame.checkScope, hscopes s (h.scopes.mem_iff.mp hs)]
  · rw [hsame.checkBinding, hbindings b (h.bindings.mem_iff.mp hb)]
  · rw [hsame.checkBlock, hblocks b (h.blocks.mem_iff.mp hb)]

end Reorders

end Function

namespace Regions
variable {f g : Function} {types : TypeTable} {r r' : Regions} (h : f.Reorders g)
    (hr : r.Computed f types)
  (hr' : r'.Computed g types)
include h hr hr'

theorem refs_reordered : r'.refs = r.refs := by
  apply ExtTreeSet.ext_mem
  intro x
  rw [hr.mem_refs, hr'.mem_refs, Function.IsRef, Function.IsRef, Registry.get?_of_perm h.bindings]

theorem liveIn_reordered : r'.liveIn = r.liveIn := by
  have hsame := refs_reordered h hr hr'
  refine Included.antisymm (Liveness.liveIn_least hr'.liveIn fun b hb => ?_)
    (Liveness.liveIn_least hr.liveIn fun b hb => ?_)
  · rw [hsame]
    exact hr.getElem?_liveIn (h.blocks.mem_iff.mp hb)
  · rw [← hsame]
    exact hr'.getElem?_liveIn (h.blocks.mem_iff.mpr hb)

theorem isUnused_reordered (ref : String) : r'.isUnused ref = r.isUnused ref := by
  have huses : g.useSites ref ≠ [] ↔ f.useSites ref ≠ [] := by
    rw [Function.useSites, Function.useSites, Function.name, Function.name, h.signature]
    exact not_congr ⟨fun hnil => (hnil ▸ h.blocks.flatMap_right _).symm.eq_nil,
      fun hnil => (hnil ▸ h.blocks.flatMap_right _).eq_nil⟩
  have hcontains : r'.useSites.contains ref = r.useSites.contains ref := by
    rw [hr.useSites, hr'.useSites, refs_reordered h hr hr', Bool.eq_iff_iff, contains_sitesOf,
      contains_sitesOf, huses]
  rw [isUnused, isUnused, refs_reordered h hr hr', hcontains]

theorem isLiveAfter_reordered {l : String} {b : Block} (hb : f.blocks.get? l = some b)
    (ref : String) (n : Int) : r'.isLiveAfter ref l n = r.isLiveAfter ref l n := by
  have hmem := Registry.mem_of_get?_eq_some hb
  have hlabel : b.label = l := Registry.name_of_get?_eq_some hb
  have hafter := hr.getElem?_liveAfter hmem
  have hafter' := hr'.getElem?_liveAfter (h.blocks.mem_iff.mpr hmem)
  rw [refs_reordered h hr hr', liveIn_reordered h hr hr', ← hafter, hlabel] at hafter'
  rw [isLiveAfter, isLiveAfter, ExtTreeMap.getD_eq_getD_getElem?,
    ExtTreeMap.getD_eq_getD_getElem?, hafter']

/-- The references of a reordered function are alike but for where they are used next. -/
theorem agreeOn_reordered {signatures : Registry Signature} (hf : f.Fits types signatures)
    (hpolicy : r'.policy = r.policy) :
    r.AgreeOn f.Reachable (fun _ => True) r' fun _ _ => True where
  isHeldFast ref _ := by
    rw [isHeldFast, isHeldFast, hpolicy, refs_reordered h hr hr', isUnused_reordered h hr hr']
  isLiveIn ref l _ := by rw [isLiveIn, isLiveIn, liveIn_reordered h hr hr']
  isLiveAfter ref l n hl := by
    obtain ⟨b, hb⟩ := hf.reachable hl
    exact isLiveAfter_reordered h hr hr' hb ref n
  explain _ _ _ _ _ := trivial

end Regions

namespace Checker
variable {k : Checker} {f g : Function} {r r' : Regions} {l : String}

def findings (report : FunctionReport) :
    List (DiagnosticKind × Option String × Option Location × String × Span) :=
  report.diagnostics.map fun d => (d.kind, d.subject, d.location, d.message, d.span)

theorem findings_of_like {E : Explains} {report report' : FunctionReport}
    (h : report.Like E report') : findings report' = findings report := by
  have hmap : ∀ {ds ds' : List Diagnostic}, List.Forall₂ (Diagnostic.Like E) ds ds' →
      ds'.map (fun d => (d.kind, d.subject, d.location, d.message, d.span)) =
        ds.map fun d => (d.kind, d.subject, d.location, d.message, d.span) := by
    intro ds ds' hds
    induction hds with
    | nil => rfl
    | cons hd _ ih =>
      rw [List.map_cons, List.map_cons, ih, hd.kind, hd.subject, hd.location, hd.message, hd.span]
  obtain ⟨name, outcome⟩ := report
  obtain ⟨name', outcome'⟩ := report'
  cases h.outcome with
  | malformed problem => rfl
  | analysed visits blocks hds => exact hmap hds

/-- What the tables of a well-formed function contain decides its analysis, and its diagnostics but
for the explanations. The order of the tables does not matter, if the function names its entry. -/
theorem reordered_reported_alike
    (hf : WellFormed.checkFunction f k.types (k.signaturesFor f) = .ok ())
    (hentry : f.entry = some l) (h : f.Reorders g) (hr : Regions.compute f k.types k.policy = .ok r)
    (hr' : Regions.compute g k.types k.policy = .ok r') :
    WellFormed.checkFunction g k.types (k.signaturesFor g) = .ok () ∧
    (k.analyze g).map (fun a => (a.order, a.visits, a.inStates, a.outStates)) =
      (k.analyze f).map (fun a => (a.order, a.visits, a.inStates, a.outStates)) ∧
    (k.checkFunction g).map findings = (k.checkFunction f).map findings := by
  have hsame := h.sameLookups k hentry
  have hg := h.wellFormed hentry hf
  obtain ⟨hcomputed, hpolicy, -⟩ := Regions.compute_inv hr
  obtain ⟨hcomputed', hpolicy', -⟩ := Regions.compute_inv hr'
  have hagree := Regions.agreeOn_reordered h hcomputed hcomputed' (WellFormed.checkFunction_inv hf)
    (hpolicy'.trans hpolicy.symm)
  have hmirrors := hsame.mirrors (fun _ => trivial) hagree
  refine ⟨hg, ?_, ?_⟩
  · have hanalyze :=
      hmirrors.analyze hf hg hr hr' hsame.reversePostorder fun entry rest s horder hs => by
        rw [hsame.visitBound, hmirrors.visits hf horder hs]
    rw [hanalyze]
    cases k.analyze f <;> rfl
  · obtain ⟨report, report', hreport, hreport', hlike⟩ | ⟨e, hreport, hreport'⟩ :=
      hmirrors.checkFunction hf hg hr hr' hsame.reversePostorder hsame.visitBound
    · rw [hreport, hreport']
      exact congrArg Except.ok (findings_of_like hlike)
    · rw [hreport, hreport']

end Checker

namespace Function

/-- A number is changed in each round of a loop, while a reference to it is still used behind both
ways out. -/
def twoExits : Function :=
  { ofParts "twoExits" [{ name := "x", type := 1, mutable := true },
      { name := "r", type := 2, scope := "inner" }]
      [{ label := "entry", body := [{ op := .init "x" none }, { op := .borrow "x" .shared "r" }],
         ending := some { terminator := .jump "change" } },
       { label := "change", body := [{ op := .write "x" none }],
         ending := some { terminator := .branch "again" "left" none } },
       { label := "again", ending := some { terminator := .branch "change" "right" none } },
       { label := "left", body := [{ op := .use "r" }, { op := .endScope "inner" }],
         ending := some { terminator := .ret none } },
       { label := "right", body := [{ op := .use "r" }],
         ending := some { terminator := .ret none } }] with
    scopes := .ofList [{ id := rootScope }, { id := "inner", parent := some rootScope }]
    entry := some "entry" }

def twoExitsReordered : Function :=
  { ofParts "twoExits" [{ name := "r", type := 2, scope := "inner" },
      { name := "x", type := 1, mutable := true }]
      [{ label := "right", body := [{ op := .use "r" }],
         ending := some { terminator := .ret none } },
       { label := "again", ending := some { terminator := .branch "change" "right" none } },
       { label := "change", body := [{ op := .write "x" none }],
         ending := some { terminator := .branch "again" "left" none } },
       { label := "left", body := [{ op := .use "r" }, { op := .endScope "inner" }],
         ending := some { terminator := .ret none } },
       { label := "entry", body := [{ op := .init "x" none }, { op := .borrow "x" .shared "r" }],
         ending := some { terminator := .jump "change" } }] with
    scopes := .ofList [{ id := "inner", parent := some rootScope }, { id := rootScope }]
    entry := some "entry" }

end Function

namespace Checker

theorem twoExits_wellFormed :
    WellFormed.checkFunction .twoExits basic.types (basic.signaturesFor .twoExits) =
      .ok () := by decide

theorem twoExits_reorders : Function.twoExits.Reorders .twoExitsReordered :=
  ⟨rfl, rfl, by decide, by decide, by decide⟩

/-- In both orders the number is found to be changed while it is lent, but another next use is given
as the reason. -/
theorem reordered_reported_alike_twoExits :
    WellFormed.checkFunction .twoExits basic.types (basic.signaturesFor .twoExits) = .ok () ∧
    Function.twoExits.entry = some "entry" ∧ Function.twoExits.Reorders .twoExitsReordered ∧
    (∃ r, Regions.compute .twoExits .basic .lastUse = .ok r) ∧
    (∃ r', Regions.compute .twoExitsReordered .basic .lastUse = .ok r') ∧
    (basic.checkFunction .twoExitsReordered).map findings =
      (basic.checkFunction .twoExits).map findings ∧
    ∃ report report', basic.checkFunction .twoExits = .ok report ∧
      basic.checkFunction .twoExitsReordered = .ok report' ∧
      report.diagnostics.map Diagnostic.kind = [.writeWhileBorrowed] ∧
      report'.diagnostics ≠ report.diagnostics := by
  obtain ⟨r, hr⟩ : ∃ r, Regions.compute .twoExits basic.types basic.policy = .ok r :=
    Except.exists_of_isOk (by decide +kernel)
  obtain ⟨r', hr'⟩ : ∃ r', Regions.compute .twoExitsReordered basic.types basic.policy = .ok r' :=
    Except.exists_of_isOk (by decide +kernel)
  obtain ⟨-, -, hsame⟩ := reordered_reported_alike twoExits_wellFormed rfl twoExits_reorders hr hr'
  have hruns : (do
      let report ← basic.checkFunction .twoExits
      let report' ← basic.checkFunction .twoExitsReordered
      return report.diagnostics.map Diagnostic.kind = [.writeWhileBorrowed] ∧
        report'.diagnostics ≠ report.diagnostics :
        Except Fault Bool) = .ok true := by decide +kernel
  obtain ⟨report, hreport, hruns⟩ := Except.bind_inv hruns
  obtain ⟨report', hreport', hruns⟩ := Except.bind_inv hruns
  obtain ⟨hkinds, hapart⟩ := of_decide_eq_true (Except.ok.inj hruns)
  exact ⟨twoExits_wellFormed, rfl, twoExits_reorders, ⟨r, hr⟩, ⟨r', hr'⟩, hsame, report, report',
    hreport, hreport', hkinds, hapart⟩

end Checker

end Ownership

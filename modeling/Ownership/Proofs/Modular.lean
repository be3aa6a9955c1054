import Ownership.Proofs.Matching
import Ownership.Proofs.Validation

/-! # Functions are checked on their own

When a program is made ready to be checked, the references that borrows introduce are declared, and
their types are registered in the one table of the program. So the body of one function changes the
numbers of types in another one. The check of a function comes to the same all the same, since the
types that its bindings get in two programs match. What another function can do is to break off the
verification of the whole program.
-/
namespace Ownership
open Std

theorem Registry.entries_insert_of_new {α : Type} [Named α] {r : Registry α} {a : α}
    (h : r.contains (Named.name a) = false) : (r.insert a).entries = r.entries ++ [a] := by
  rw [insert, dif_neg (by rw [h]; exact Bool.false_ne_true)]

namespace Function
variable {t₀ t t' : TypeTable} {f g : Function}

/-- An operation introduces nothing, or a reference that is not bound yet to a binding that is. -/
theorem declareIntroduced_cases (f : Function) (t : TypeTable) (i : Instruction) :
    f.declareIntroduced t i = (f, t) ∨
    ∃ b source exclusive, f.bindings.contains b.name = false ∧ source ∈ f.bindings.entries ∧
      b.type = (t.ref source.type exclusive none).2 ∧
      f.declareIntroduced t i = (f.addBinding b, (t.ref source.type exclusive none).1) := by
  obtain ⟨op, span⟩ := i
  cases op with
  | borrow x kind ref =>
    simp only [declareIntroduced]
    cases hnew : f.bindings.contains ref with
    | true => exact .inl rfl
    | false =>
      cases hx : f.bindings.get? x with
      | none => exact .inl rfl
      | some source =>
        exact .inr ⟨_, source, kind == .exclusive, hnew, Registry.mem_of_get?_eq_some hx, rfl, rfl⟩
  | _ => exact .inl rfl

theorem declareIntroduced_grownFrom (f : Function) (t : TypeTable) (i : Instruction) :
    t.GrownFrom (f.declareIntroduced t i).2 := by
  obtain hsame | ⟨b, source, exclusive, -, -, -, hintroduced⟩ := f.declareIntroduced_cases t i
  · rw [hsame]
    exact .refl t
  · rw [hintroduced]
    exact t.grownFrom_ref _ _

theorem signature_declareIntroduced (f : Function) (t : TypeTable) (i : Instruction) :
    (f.declareIntroduced t i).1.signature = f.signature := by
  obtain hsame | ⟨b, source, exclusive, -, -, -, hintroduced⟩ := f.declareIntroduced_cases t i
  · rw [hsame]
  · rw [hintroduced]
    rfl

theorem Matches.mono {u u' : TypeTable} (h : f.Matches t₀ t t' g) (hu : t.Extends u)
    (hu' : t'.Extends u') : f.Matches t₀ u u' g where
  signature := h.signature
  scopes := h.scopes
  blocks := h.blocks
  entry := h.entry
  bindings :=
    h.bindings.imp fun _ _ hb => ⟨hb.name, hb.mutable, hb.scope, hb.span, hb.type.mono hu hu'⟩

theorem Matches.addBinding (h : f.Matches t₀ t t' g) {b b' : Binding} (hb : b.Matches t₀ t t' b')
    (hnew : f.bindings.contains b.name = false) (hnew' : g.bindings.contains b'.name = false) :
    (f.addBinding b).Matches t₀ t t' (g.addBinding b') where
  signature := h.signature
  scopes := h.scopes
  blocks := h.blocks
  entry := h.entry
  bindings := by
    rw [Function.addBinding, Function.addBinding, Registry.entries_insert_of_new hnew,
      Registry.entries_insert_of_new hnew']
    exact List.rel_append h.bindings (.cons hb .nil)

/-- An introduced reference gets types that match, since the borrowed bindings have such. -/
theorem Matches.declareIntroduced (h : f.Matches t₀ t t' g) (i : Instruction) :
    (f.declareIntroduced t i).1.Matches t₀ (f.declareIntroduced t i).2 (g.declareIntroduced t' i).2
      (g.declareIntroduced t' i).1 := by
  obtain ⟨op, span⟩ := i
  cases op with
  | borrow x kind ref =>
    have hget := Registry.rel_get? (fun _ _ hb => hb.name) h.bindings
    have hcontains : g.bindings.contains ref = f.bindings.contains ref := by
      rw [← Registry.isSome_get?, ← Registry.isSome_get?]
      have href := hget ref
      generalize f.bindings.get? ref = found at href ⊢
      generalize g.bindings.get? ref = found' at href ⊢
      cases href <;> rfl
    simp only [Function.declareIntroduced, hcontains]
    cases hnew : f.bindings.contains ref with
    | true => exact h
    | false =>
      have hnew' := hcontains.trans hnew
      have hx := hget x
      generalize f.bindings.get? x = found at hx ⊢
      generalize g.bindings.get? x = found' at hx ⊢
      cases hx with
      | none => exact h
      | @some b b' hb =>
        obtain ⟨hgrown, hfetch⟩ := t.intern_spec (.ref b.type (kind == .exclusive) none)
        obtain ⟨hgrown', hfetch'⟩ := t'.intern_spec (.ref b'.type (kind == .exclusive) none)
        have htype := TypeTable.Matches.ref hfetch hfetch' (hb.type.mono hgrown hgrown')
        exact (h.mono hgrown hgrown').addBinding ⟨rfl, rfl, rfl, rfl, htype⟩ hnew hnew'
  | _ => exact h

theorem normalize_induction {P : Function → TypeTable → Prop}
    (hstep : ∀ g u i, P g u → P (g.declareIntroduced u i).1 (g.declareIntroduced u i).2)
    (h : P f t) : P (f.normalize t).1 (f.normalize t).2 := by
  unfold normalize
  generalize f.instructions = is
  induction is generalizing f t with
  | nil => exact h
  | cons i is ih => exact ih (hstep f t i h)

theorem normalize_grownFrom (f : Function) (t : TypeTable) : t.GrownFrom (f.normalize t).2 :=
  normalize_induction (P := fun _ u => t.GrownFrom u)
    (fun g u i hu => hu.trans (g.declareIntroduced_grownFrom u i)) (.refl t)

theorem signature_normalize (f : Function) (t : TypeTable) :
    (f.normalize t).1.signature = f.signature :=
  normalize_induction (P := fun g _ => g.signature = f.signature)
    (fun g u i hg => (g.signature_declareIntroduced u i).trans hg) rfl

theorem Matches.normalize (h : f.Matches t₀ t t' g) :
    (f.normalize t).1.Matches t₀ (f.normalize t).2 (g.normalize t').2 (g.normalize t').1 := by
  have hinstructions : g.instructions = f.instructions := by
    rw [instructions, instructions, h.blocks]
  unfold Function.normalize
  rw [hinstructions]
  clear hinstructions
  generalize f.instructions = is
  induction is generalizing f g t t' with
  | nil => exact h
  | cons i is ih => exact ih (h.declareIntroduced i)

end Function

def ProgramReport.on? (report : ProgramReport) (name : String) : Option FunctionReport :=
  report.functions.find? fun q => q.name == name

namespace Program
variable {p p' : Program} {f : Function} {n : String}

/-- The second program is the first with some functions made ready, each with a table that had grown
from the first one and grew on from there. -/
structure Readies (p : Program) (fs : List Function) (q : Program) : Prop where
  types : p.types.GrownFrom q.types
  externs : q.externs = p.externs
  names : q.functions.names = p.functions.names
  others : ∀ n, n ∉ fs.map Function.name → q.functions.get? n = p.functions.get? n
  ready : ∀ f ∈ fs, ∃ t, p.types.GrownFrom t ∧ (f.normalize t).2.Extends q.types ∧
    q.functions.get? f.name = some (f.normalize t).1

theorem normalizeFunction_readies (hf : p.functions.contains f.name = true) :
    p.Readies [f] (p.normalizeFunction f) := by
  have hname : (f.normalize p.types).1.name = f.name :=
    congrArg Signature.name (f.signature_normalize p.types)
  have hget : ∀ n, (p.normalizeFunction f).functions.get? n =
      if f.name = n then some (f.normalize p.types).1 else p.functions.get? n := by
    intro n
    rw [← hname]
    exact Registry.get?_insert ..
  refine ⟨f.normalize_grownFrom p.types, rfl, ?_, fun n hn => ?_, ?_⟩
  · refine (Registry.names_insert ..).trans (if_pos ?_)
    rw [← hname] at hf
    exact hf
  · rw [hget, if_neg fun h => hn (by simp [h])]
  · rintro g hg
    cases List.mem_singleton.mp hg
    exact ⟨p.types, .refl _, .refl _, (hget f.name).trans (if_pos rfl)⟩

theorem foldl_readies (fs : List Function) (hdistinct : (fs.map Function.name).Nodup)
    (hin : ∀ f ∈ fs, p.functions.contains f.name = true) :
    p.Readies fs (fs.foldl normalizeFunction p) := by
  induction fs generalizing p with
  | nil => exact ⟨.refl _, rfl, rfl, fun _ _ => rfl, by simp⟩
  | cons f fs ih =>
    obtain ⟨hf, hdistinct⟩ := List.nodup_cons.mp hdistinct
    obtain ⟨hinf, hin⟩ := List.forall_mem_cons.mp hin
    have hfirst := normalizeFunction_readies hinf
    have hrest := ih (p := p.normalizeFunction f) hdistinct fun g hg => by
      rw [Registry.contains_iff_mem_names, hfirst.names, ← Registry.contains_iff_mem_names]
      exact hin g hg
    refine ⟨hfirst.types.trans hrest.types, hrest.externs.trans hfirst.externs,
      hrest.names.trans hfirst.names, ?_, ?_⟩
    · intro n hn
      obtain ⟨hnf, hn⟩ := not_or.mp (mt List.mem_cons.mpr hn)
      exact (hrest.others n hn).trans (hfirst.others n (by simpa using hnf))
    · refine List.forall_mem_cons.mpr ⟨?_, fun g hg => ?_⟩
      · obtain ⟨t, ht, hgrown, hget⟩ := hfirst.ready f (List.mem_singleton_self f)
        exact ⟨t, ht, hgrown.trans hrest.types.keeps, (hrest.others f.name hf).trans hget⟩
      · obtain ⟨t, ht, hgrown, hget⟩ := hrest.ready g hg
        exact ⟨t, hfirst.types.trans ht, hgrown, hget⟩

theorem normalize_readies (p : Program) : p.Readies p.functions.entries p.normalize :=
  foldl_readies _ p.functions.distinct fun _ hf =>
    Registry.contains_iff_mem_names.mpr (List.mem_map_of_mem hf)

theorem get?_signatures (p : Program) (n : String) :
    p.signatures.get? n = ((p.functions.get? n).map Function.signature).or (p.externs.get? n) := by
  have hfold : ∀ (fs : List Function) (r : Registry Signature), (fs.map Function.name).Nodup →
      (fs.foldl (fun r f => r.insert f.signature) r).get? n =
        ((fs.find? fun f => f.name == n).map Function.signature).or (r.get? n) := by
    intro fs
    induction fs with
    | nil => exact fun r _ => rfl
    | cons f fs ih =>
      intro r hdistinct
      obtain ⟨hf, hdistinct⟩ := List.nodup_cons.mp hdistinct
      have hinsert : (r.insert f.signature).get? n = if f.name = n then some f.signature
          else r.get? n :=
        Registry.get?_insert ..
      rw [List.foldl_cons, ih _ hdistinct, hinsert, List.find?_cons]
      by_cases hn : f.name = n
      · have hnone : (fs.find? fun f => f.name == n) = none := by
          refine List.find?_eq_none.mpr fun g hg hname => hf ?_
          rw [hn, ← beq_iff_eq.mp hname]
          exact List.mem_map_of_mem hg
        simp [hn, hnone]
      · have hname : (f.name == n) = false := beq_eq_false_iff_ne.mpr hn
        simp [hn, hname]
  exact hfold p.functions.entries p.externs p.functions.distinct

theorem signature_of_ready (p : Program) (n : String) :
    (p.normalize.functions.get? n).map Function.signature =
      (p.functions.get? n).map Function.signature := by
  have hready := p.normalize_readies
  cases hn : p.functions.get? n with
  | none =>
    have hnew : n ∉ p.functions.entries.map Function.name := fun hmem => by
      have hin := Registry.isSome_get?.trans (Registry.contains_iff_mem_names.mpr hmem)
      rw [hn] at hin
      cases hin
    rw [hready.others n hnew, hn]
  | some f =>
    obtain ⟨hf, rfl⟩ := Registry.get?_eq_some_iff.mp hn
    obtain ⟨t, -, -, hget⟩ := hready.ready f hf
    refine (congrArg (Option.map Function.signature) hget).trans ?_
    exact congrArg some (f.signature_normalize t)

/-- The signatures that may be called stay the same when a program is made ready. -/
theorem get?_signatures_normalize (p : Program) (n : String) :
    p.normalize.signatures.get? n = p.signatures.get? n := by
  rw [get?_signatures, get?_signatures, p.signature_of_ready, p.normalize_readies.externs]

structure SameInterface (p p' : Program) : Prop where
  types : p'.types = p.types
  externs : p'.externs = p.externs
  signatures : ∀ n, (p'.functions.get? n).map Function.signature =
    (p.functions.get? n).map Function.signature

structure TypesDefined (p : Program) (f : Function) : Prop where
  table : p.types.Complete
  functions : ∀ g ∈ p.functions.entries, g.signature.DefinedIn p.types
  externs : ∀ s ∈ p.externs.entries, s.DefinedIn p.types
  bindings : ∀ b ∈ f.bindings.entries, p.types.Defines b.type

theorem TypesDefined.signatures (h : p.TypesDefined f) {s : Signature}
    (hs : p.signatures.get? n = some s) : s.DefinedIn p.types := by
  rw [get?_signatures] at hs
  rcases Option.or_eq_some_iff.mp hs with hs | ⟨-, hs⟩
  · obtain ⟨g, hg, rfl⟩ := Option.map_eq_some_iff.mp hs
    exact h.functions g (Registry.mem_of_get?_eq_some hg)
  · exact h.externs s (Registry.mem_of_get?_eq_some hs)

/-- In both programs the function is checked with the same result. -/
theorem checked_alike (h : p.SameInterface p') (hdef : p.TypesDefined f)
    (hf : p.functions.get? n = some f) (hf' : p'.functions.get? n = some f) (policy : RegionPolicy)
    (autoBorrow : Bool) :
    ∃ g g', p.normalize.functions.get? n = some g ∧ p'.normalize.functions.get? n = some g' ∧
      (p'.normalize.checker policy autoBorrow).checkFunction g' =
        (p.normalize.checker policy autoBorrow).checkFunction g := by
  obtain ⟨hmem, rfl⟩ := Registry.get?_eq_some_iff.mp hf
  obtain ⟨t, ht, hgrown, hget⟩ := p.normalize_readies.ready f hmem
  obtain ⟨t', ht', hgrown', hget'⟩ :=
    p'.normalize_readies.ready f (Registry.mem_of_get?_eq_some hf')
  have hshared : f.Matches p.types t t' f :=
    ⟨rfl, rfl, rfl, rfl, List.forall₂_same.mpr fun b hb =>
      ⟨rfl, rfl, rfl, rfl, .shared (hdef.bindings b hb)⟩⟩
  have hkeeps := p.normalize_readies.types.keeps
  have hkeeps' : p.types.Extends p'.normalize.types := h.types ▸ p'.normalize_readies.types.keeps
  have hsignature : (f.normalize t).1.signature.DefinedIn p.types := by
    rw [f.signature_normalize]
    exact hdef.functions f hmem
  have hcallee : ∀ m, p'.normalize.signatures.get? m = p.normalize.signatures.get? m := fun m => by
    rw [get?_signatures_normalize, get?_signatures_normalize, get?_signatures, get?_signatures,
      h.signatures, h.externs]
  have hcallees : ∀ m s, p.normalize.signatures.get? m = some s →
      s.DefinedIn p.types := fun m s hs =>
    hdef.signatures ((p.get?_signatures_normalize m).symm.trans hs)
  exact ⟨_, _, hget, hget', Function.Matches.checkFunction_eq hdef.table hkeeps hkeeps'
    (hshared.normalize.mono hgrown hgrown') rfl hsignature hcallee hcallees rfl⟩

theorem name_of_checkFunction {k : Checker} {report : FunctionReport}
    (h : k.checkFunction f = .ok report) : report.name = f.name := by
  rw [Checker.checkFunction] at h
  split at h
  · cases h
    rfl
  · cases h
  · obtain ⟨ds, -, h⟩ := Except.bind_inv h
    cases h
    rfl

theorem find?_of_mapM {k : Checker} {fs : List Function} {reports : List FunctionReport}
    (h : fs.mapM k.checkFunction = .ok reports) (hf : fs.find? (fun f => f.name == n) = some f) :
    ∃ q, k.checkFunction f = .ok q ∧ reports.find? (fun q => q.name == n) = some q := by
  induction fs generalizing reports with
  | nil => cases hf
  | cons g fs ih =>
    obtain ⟨q, reports', hq, hreports, rfl⟩ := Except.mapM_cons_inv h
    rw [List.find?_cons] at hf ⊢
    rw [name_of_checkFunction hq]
    cases hn : g.name == n with
    | true =>
      rw [hn] at hf
      cases hf
      exact ⟨q, hq, rfl⟩
    | false =>
      rw [hn] at hf
      exact ih hreports hf

/-- A program whose types are there is verified by checking its functions in turn. -/
theorem verify_eq_mapM (h : p.types.Complete) (policy : RegionPolicy) (autoBorrow : Bool) :
    p.verify policy autoBorrow =
    (do return ⟨← p.normalize.functions.entries.mapM
      (p.normalize.checker policy autoBorrow).checkFunction⟩) := by
  obtain ⟨classes, hclasses⟩ :=
    TypeTable.classifyEvery_total fun id hid => p.normalize_readies.types.holds h hid
  rw [verify, verifyNormalized, hclasses]

/-- A function has the same report in two programs that differ in the bodies of other functions,
unless the check of such a function breaks off and with it the verification of its program. -/
theorem verified_alike (h : p.SameInterface p') (hdef : p.TypesDefined f)
    (hf : p.functions.get? n = some f) (hf' : p'.functions.get? n = some f) (policy : RegionPolicy)
    (autoBorrow : Bool) :
    (∃ g g', p.normalize.functions.get? n = some g ∧ p'.normalize.functions.get? n = some g' ∧
      (p'.normalize.checker policy autoBorrow).checkFunction g' =
        (p.normalize.checker policy autoBorrow).checkFunction g) ∧
    ∀ report, p.verify policy autoBorrow = .ok report →
      ∃ q, report.on? n = some q ∧
        ((∃ report', p'.verify policy autoBorrow = .ok report' ∧ report'.on? n = some q) ∨
          ∃ m g e, m ≠ n ∧ p'.normalize.functions.get? m = some g ∧
            (p'.normalize.checker policy autoBorrow).checkFunction g = .error e ∧
            p'.verify policy autoBorrow = .error e) := by
  obtain ⟨g, g', hg, hg', hsame⟩ := checked_alike h hdef hf hf' policy autoBorrow
  refine ⟨⟨g, g', hg, hg', hsame⟩, fun report hreport => ?_⟩
  have hverify := p.verify_eq_mapM hdef.table policy autoBorrow
  have hverify' := p'.verify_eq_mapM (h.types.symm ▸ hdef.table) policy autoBorrow
  obtain ⟨reports, hreports, hmade⟩ := Except.bind_inv (hverify.symm.trans hreport)
  cases hmade
  obtain ⟨q, hq, hfind⟩ := find?_of_mapM hreports hg
  refine ⟨q, hfind, ?_⟩
  cases hall : p'.normalize.functions.entries.mapM
    (p'.normalize.checker policy autoBorrow).checkFunction with
  | ok reports' =>
    obtain ⟨q', hq', hfind'⟩ := find?_of_mapM hall hg'
    cases (hsame.trans hq).symm.trans hq'
    exact Or.inl ⟨⟨reports'⟩, hverify'.trans (Except.bind_of_ok hall), hfind'⟩
  | error e =>
    obtain ⟨b, hb, hfails⟩ := Except.exists_of_mapM_error hall
    have hget := Registry.get?_eq_some_of_mem hb
    refine Or.inr ⟨b.name, b, e, ?_, hget, hfails, hverify'.trans (Except.bind_of_error hall)⟩
    rintro rfl
    cases hg'.symm.trans hget
    cases (hsame.trans hq).symm.trans hfails

end Program

namespace Function

/-- A reference that the borrow introduces is copied, which is refused with its type spelled out. -/
def copiesBorrow : Function :=
  ofParts "copiesBorrow" [{ name := "x", type := 3, mutable := true }, { name := "y", type := 2 }]
    [{ label := "entry",
       body := [{ op := .init "x" none }, { op := .borrow "x" .exclusive "m" },
         { op := .copy "y" "m" }],
       ending := some { terminator := .ret none } }]

def idleNeighbour : Function :=
  ofParts "neighbour" [] [{ label := "entry", ending := some { terminator := .ret none } }]

def busyNeighbour : Function :=
  ofParts "neighbour" [{ name := "a", type := 1, mutable := true }]
    [{ label := "entry", body := [{ op := .init "a" none }, { op := .borrow "a" .exclusive "p" },
         { op := .borrow "p" .shared "q" }, { op := .use "q" }],
       ending := some { terminator := .ret none } }]

def strayingNeighbour : Function :=
  (idleNeighbour.addScope ⟨"inner", some "outer"⟩).addScope ⟨"outer", some "gone"⟩

end Function

namespace Program

def besides (neighbour : Function) : Program :=
  { types := .basic, functions := .ofList [neighbour, .copiesBorrow] }

theorem sameInterface_of_map {p p' : Program} (htypes : p'.types = p.types)
    (hexterns : p'.externs = p.externs)
    (h : p'.functions.entries.map Function.signature = p.functions.entries.map Function.signature) :
    p.SameInterface p' where
  types := htypes
  externs := hexterns
  signatures n := by
    have hfind : ∀ p : Program, (p.functions.get? n).map Function.signature =
        (p.functions.entries.map Function.signature).find? fun s => s.name == n := fun p => by
      rw [List.find?_map]
      rfl
    rw [hfind, hfind, h]

theorem basic_complete : TypeTable.basic.Complete := TypeTable.basic_closed.members

theorem besides_typesDefined : (besides .idleNeighbour).TypesDefined .copiesBorrow where
  table := basic_complete
  functions g hg := by
    have hplain : ∀ g ∈ (besides .idleNeighbour).functions.entries, g.signature.params = [] ∧
        g.signature.returns = none := by
      decide
    obtain ⟨hparams, hreturns⟩ := hplain g hg
    exact ⟨by simp [hparams], by simp [hreturns]⟩
  externs s hs := absurd hs List.not_mem_nil
  bindings b hb := by
    have hids : ∀ b ∈ Function.copiesBorrow.bindings.entries,
        b.type ∈ TypeTable.basic.ids := by decide
    exact TypeTable.defines_of_mem_ids (hids b hb)

/-- The neighbour that borrows takes type numbers, but the copy is refused in the same words. -/
theorem verified_alike_besides : (besides .idleNeighbour).SameInterface (besides .busyNeighbour) ∧
    (besides .idleNeighbour).TypesDefined .copiesBorrow ∧
    (besides .busyNeighbour).normalize.types ≠ (besides .idleNeighbour).normalize.types ∧
    ∃ report report' q, (besides .idleNeighbour).verify = .ok report ∧
      (besides .busyNeighbour).verify = .ok report' ∧
      report.on? "copiesBorrow" = some q ∧ report'.on? "copiesBorrow" = some q ∧
      q.diagnostics.map Diagnostic.message = ["cannot copy `m` of owning type &mut String"] := by
  have hsame : (besides .idleNeighbour).SameInterface (besides .busyNeighbour) :=
    sameInterface_of_map rfl rfl (by decide)
  have hrun : (do
      let report ← (besides .idleNeighbour).verify
      return (report.on? "copiesBorrow").map fun q =>
        q.diagnostics.map Diagnostic.message : Except Fault _) =
          .ok (some ["cannot copy `m` of owning type &mut String"]) := by decide +kernel
  obtain ⟨report, hreport, hmessages⟩ := Except.bind_inv hrun
  obtain ⟨report', hreport'⟩ : ∃ report', (besides .busyNeighbour).verify = .ok report' :=
    Except.exists_of_isOk (by decide +kernel)
  have hf : (besides .idleNeighbour).functions.get? "copiesBorrow" = some .copiesBorrow := by decide
  have hf' : (besides .busyNeighbour).functions.get? "copiesBorrow" =
      some .copiesBorrow := by decide
  obtain ⟨-, halike⟩ := verified_alike hsame besides_typesDefined hf hf' .lastUse true
  obtain ⟨q, hq, ⟨_, hmade, hq'⟩ | ⟨_, _, _, -, -, -, hfails⟩⟩ := halike report hreport
  · cases hreport'.symm.trans hmade
    rw [hq] at hmessages
    exact ⟨hsame, besides_typesDefined, by decide, report, report', q, hreport, hreport', hq, hq',
      Option.some.inj (Except.ok.inj hmessages)⟩
  · cases hreport'.symm.trans hfails

/-- A neighbour whose scopes stray leaves the function without a report. -/
theorem besides_strayingNeighbour_unverified :
    (besides .idleNeighbour).SameInterface (besides .strayingNeighbour) ∧
    (besides .idleNeighbour).TypesDefined .copiesBorrow ∧
    (∃ report, (besides .idleNeighbour).verify = .ok report) ∧
    (besides .strayingNeighbour).verify = .error (.missing (.name "gone")) :=
  ⟨sameInterface_of_map rfl rfl (by decide), besides_typesDefined,
    Except.exists_of_isOk (by decide +kernel), by decide +kernel⟩

end Program

end Ownership

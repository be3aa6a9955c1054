import Ownership.Proofs.Liveness
import Ownership.Proofs.Report

/-! # Well-formed functions are reported on

The check of a function leaves nothing for its analysis to miss. The regions of a well-formed
function can be computed if the rounds that look for next uses come to rest; then every block has a
result from every state that reaches it, and the report is made. Types have to be there with all
they are made of, since values are told apart by the members of their types.
-/
namespace Ownership
open Std

namespace Function
variable {f : Function} {types : TypeTable} {signatures : Registry Signature}

theorem refs_total (h : ∀ b ∈ f.bindings.entries, types.Defines b.type) :
    ∃ refs, f.refs types = .ok refs := by
  refine Except.foldlM_total _ (fun b hb refs => Except.bind_total (h b hb) fun d => ?_) ∅
  cases d.isRef <;> exact ⟨_, rfl⟩

theorem Fits.checkTargets (hf : f.Fits types signatures) : f.checkTargets = .ok () := by
  refine Except.forM_eq_ok.mpr fun b hb => Except.forM_eq_ok.mpr fun l hl => ?_
  have hget : f.blocks.get? b.label = some b :=
    Registry.get?_eq_some_of_mem (List.mem_reverse.mp hb)
  obtain ⟨b', hb'⟩ := hf.successor hget hl
  rw [block_iff.mpr hb']
  rfl

/-- The rounds that look for the next uses of the references come to rest. -/
def WitnessesRest (f : Function) (types : TypeTable) : Prop :=
  ∀ refs liveIn, f.refs types = .ok refs → Liveness.liveIn? f refs = some liveIn →
    ∃ table, Witness.table? f refs liveIn
      ((Regions.sitesOf f refs).toList.flatMap Prod.snd).length = some table

end Function

namespace Regions
variable {f : Function} {types : TypeTable} {policy : RegionPolicy} {r : Regions}

theorem compute_total {refs : Names} (hrefs : f.refs types = .ok refs)
    (htargets : f.checkTargets = .ok ()) (hw : f.WitnessesRest types) :
    ∃ r, compute f types policy = .ok r := by
  obtain ⟨live, hlive⟩ := Liveness.exists_live f refs
  obtain ⟨table, htable⟩ := hw refs _ hrefs (Liveness.liveIn?_of_live hlive)
  rw [Liveness.onEntries] at htable
  rw [compute, Except.bind_of_ok hrefs, Except.bind_of_ok htargets]
  simp only [hlive, htable]
  exact ⟨_, rfl⟩

theorem witnessesRest_of_compute (h : compute f types policy = .ok r) : f.WitnessesRest types := by
  intro refs liveIn hrefs hin
  obtain ⟨live, hlive, rfl⟩ := Option.map_eq_some_iff.mp hin
  rw [compute, Except.bind_of_ok hrefs] at h
  obtain ⟨_, -, h⟩ := Except.bind_inv h
  simp only [hlive] at h
  split at h
  · cases h
  · rename_i table htable
    exact ⟨table, htable⟩

end Regions

namespace Checker
variable {k : Checker} {f : Function}

/-- A function that passes the check is analysed and reported on, whatever the policy, if the types
of its bindings and parameters are there with all they are made of, those of the signatures are
there, and the rounds that look for next uses come to rest. -/
theorem wellFormed_reported (hf : WellFormed.checkFunction f k.types (k.signaturesFor f) = .ok ())
    (ht : k.TypesGrounded f) (hw : f.WitnessesRest k.types) :
    ∃ a ds, k.analyze f = .ok a ∧ k.diagnose a = .ok ds ∧
      k.checkFunction f = .ok ⟨f.name, .analysed a.visits a.order.length ds⟩ := by
  have hfits := WellFormed.checkFunction_inv hf
  obtain ⟨refs, hrefs⟩ := Function.refs_total fun b hb => (ht.bindings b hb).defines
  have hregions : ∃ r, Regions.compute f k.types k.policy = .ok r :=
    Regions.compute_total hrefs hfits.checkTargets hw
  obtain ⟨r, hr⟩ := hregions
  exact exists_report hf hr ht

end Checker

def TypeTable.chained : TypeTable :=
  ⟨[.scalar "Int", .struct "List" [("head", 1), ("tail", 2)] false, .ref 2 true none,
    .struct "Torn" [("part", 9)] false]⟩

namespace TypeTable

theorem chained_cases {id : TypeId} {d : TypeDef} (h : chained.fetch id = .ok d) :
    id = 1 ∧ d = .scalar "Int" ∨ id = 2 ∧ d = .struct "List" [("head", 1), ("tail", 2)] false ∨
    id = 3 ∧ d = .ref 2 true none ∨ id = 4 ∧ d = .struct "Torn" [("part", 9)] false := by
  have hid : id ∈ [1, 2, 3, 4] := mem_ids_of_defines ⟨d, h⟩
  simp only [List.mem_cons, List.not_mem_nil, or_false] at hid
  rcases hid with rfl | rfl | rfl | rfl <;> cases h <;> simp

theorem chained_wraps {id m : TypeId} (h : chained.Wraps id m) : id = 3 ∧ m = 2 := by
  rcases h with ⟨exclusive, lifetime, h⟩ | h
  · rcases chained_cases h with ⟨-, h⟩ | ⟨-, h⟩ | ⟨rfl, h⟩ | ⟨-, h⟩ <;> cases h
    exact ⟨rfl, rfl⟩
  · rcases chained_cases h with ⟨-, h⟩ | ⟨-, h⟩ | ⟨-, h⟩ | ⟨-, h⟩ <;> cases h

theorem chained_contains {id m : TypeId} (h : chained.Contains id m) :
    id = 2 ∧ (m = 1 ∨ m = 2) ∨ id = 4 := by
  rcases h with ⟨name, fields, finalizer, h, hm⟩ | ⟨name, arms, h, -⟩
  · rcases chained_cases h with ⟨-, h⟩ | ⟨rfl, h⟩ | ⟨-, h⟩ | ⟨rfl, h⟩ <;> cases h
    · exact Or.inl ⟨rfl, by simpa using hm⟩
    · exact Or.inr rfl
  · rcases chained_cases h with ⟨-, h⟩ | ⟨-, h⟩ | ⟨-, h⟩ | ⟨-, h⟩ <;> cases h

/-- A list contains itself, and is made of types of the table all the same. -/
theorem chained_grounded {id : TypeId} (hid : id = 1 ∨ id = 2 ∨ id = 3) : chained.Grounded id := by
  have hdefines : ∀ m : TypeId, m = 1 ∨ m = 2 ∨ m = 3 → chained.Defines m := by
    rintro m (rfl | rfl | rfl) <;> exact ⟨_, rfl⟩
  have hnested : ∀ m, Relation.ReflTransGen chained.Wraps id m → m = 1 ∨ m = 2 ∨ m = 3 := by
    intro m h
    induction h with
    | refl => exact hid
    | tail _ h _ => exact Or.inr (Or.inl (chained_wraps h).2)
  have hmembers : ∀ m, Relation.ReflTransGen chained.Contains id m → m = 1 ∨ m = 2 ∨ m = 3 := by
    intro m h
    induction h with
    | refl => exact hid
    | tail _ h ih =>
      rcases chained_contains h with ⟨-, hm⟩ | rfl
      · exact hm.imp_right Or.inl
      · simp at ih
  refine ⟨fun m h => hdefines m (hnested m h), fun m _ hcycle => ?_,
    fun m h => hdefines m (hmembers m h)⟩
  -- nothing is nested in what a reference refers to, so no type is nested in itself
  obtain ⟨n, hfirst, -⟩ := Relation.TransGen.head'_iff.mp hcycle
  obtain ⟨n', -, hlast⟩ := Relation.TransGen.tail'_iff.mp hcycle
  have hm := (chained_wraps hfirst).1
  rw [(chained_wraps hlast).2] at hm
  cases hm

end TypeTable

namespace Function

/-- A list is taken out of its place and put back through an exclusive reference, time after
time. -/
def relinkingLoop : Function :=
  ofParts "relinkingLoop"
    [{ name := "x", type := 2, mutable := true }, { name := "y", type := 2 },
      { name := "r", type := 3 }]
    [{ label := "entry", body := [{ op := .init "x" none }],
       ending := some { terminator := .jump "head" } },
     { label := "head",
       body := [{ op := .move "y" "x" }, { op := .init "x" none },
         { op := .borrow "x" .exclusive "r" },
         { op := .write "r" (some "y") }, { op := .copy "y" "x" }],
       ending := some { terminator := .branch "head" "done" none } },
     { label := "done", ending := some { terminator := .ret none } }]

def tornStruct : Function :=
  ofParts "tornStruct" [{ name := "x", type := 4 }]
    [{ label := "entry", body := [{ op := .init "x" none }],
       ending := some { terminator := .ret none } }]

end Function

namespace Checker

def chained : Checker := { types := .chained }

theorem relinkingLoop_typesGrounded : chained.TypesGrounded .relinkingLoop where
  bindings b hb := by
    have htype : ∀ b ∈ Function.relinkingLoop.bindings.entries, b.type = 1 ∨ b.type = 2 ∨
        b.type = 3 := by decide
    exact TypeTable.chained_grounded (htype b hb)
  params p hp := by
    have hnone : Function.relinkingLoop.signature.params = [] := rfl
    rw [hnone] at hp
    cases hp
  signatures s hs := by
    have hsig : s = { name := "relinkingLoop" } := List.mem_singleton.mp hs
    subst hsig
    exact ⟨nofun, nofun⟩

/-- The loop is reported on, though its lists contain lists and the table has a struct that is
torn. -/
theorem relinkingLoop_reported :
    WellFormed.checkFunction .relinkingLoop chained.types
      (chained.signaturesFor .relinkingLoop) = .ok () ∧
    ∃ a ds, chained.analyze .relinkingLoop = .ok a ∧ chained.diagnose a = .ok ds ∧
      chained.checkFunction .relinkingLoop =
        .ok ⟨"relinkingLoop", .analysed a.visits a.order.length ds⟩ := by
  have hf : WellFormed.checkFunction .relinkingLoop chained.types
      (chained.signaturesFor .relinkingLoop) = .ok () := by
    decide
  obtain ⟨r, hr⟩ : ∃ r, Regions.compute .relinkingLoop chained.types chained.policy = .ok r :=
    Except.exists_of_isOk (by decide +kernel)
  exact ⟨hf, wellFormed_reported hf relinkingLoop_typesGrounded
    (Regions.witnessesRest_of_compute hr)⟩

/-- The type of the one binding is in the table and nests nothing, but a member of it is missed. -/
theorem tornStruct_unreported :
    WellFormed.checkFunction .tornStruct chained.types
      (chained.signaturesFor .tornStruct) = .ok () ∧
    (∀ b ∈ Function.tornStruct.bindings.entries, chained.types.Defines b.type ∧
      ∀ m, ¬chained.types.Wraps b.type m) ∧
    Function.tornStruct.signature.params = [] ∧ Function.tornStruct.signature.returns = none ∧
    Function.tornStruct.WitnessesRest chained.types ∧
    chained.checkFunction .tornStruct = .error (.missing (.type 9)) := by
  have hbindings : ∀ b ∈ Function.tornStruct.bindings.entries, b.type = 4 := by decide
  obtain ⟨r, hr⟩ : ∃ r, Regions.compute .tornStruct chained.types chained.policy = .ok r :=
    Except.exists_of_isOk (by decide +kernel)
  refine ⟨by decide, fun b hb => ?_, rfl, rfl, Regions.witnessesRest_of_compute hr,
    by decide +kernel⟩
  rw [hbindings b hb]
  refine ⟨⟨_, rfl⟩, fun m hm => ?_⟩
  cases (TypeTable.chained_wraps hm).1

end Checker

end Ownership

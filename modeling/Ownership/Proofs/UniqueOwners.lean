import Ownership.Proofs.Owners
import Ownership.Proofs.Steps

/-! # One resource for each owner on a path

On a path nothing meets, so each owner that has a value holds one resource and no other. Whatever is
found on the way, no operation gives a resource to two owners: it hands on what an owner held, or
creates a resource, and then all that its point created before is older. So two owners hold the same
resource only if it has got as old as ages are told apart.
-/
namespace Ownership
open Std

namespace FlowState
variable {T : String → Prop} {limit : Int} {s t : FlowState} {x y : String} {q : Resource}
variable {origin : Location} {n : Nat} {source : String → Option String}

theorem mem_held_of_getElem? {held : Resources} (h : s.resources[x]? = some held) :
    q ∈ s.held x ↔ q ∈ held := by
  simp [mem_held_iff, h]

def HoldsOne (T : String → Prop) (s : FlowState) : Prop :=
  ∀ x, s.Holder T x → ∃ q, ∀ q', q' ∈ s.held x ↔ q' = q

theorem HoldsOne.rearranges (h : s.HoldsOne T) (hst : Rearranges T origin limit n source s t) :
    t.HoldsOne T := by
  intro x hx
  cases hsource : source x with
  | none => exact ⟨_, (hst.minted x hx hsource).2⟩
  | some y =>
    obtain ⟨hy, hheld⟩ := hst.passed x y hx hsource
    obtain ⟨q, hq⟩ := h y hy
    exact ⟨(Resource.agedAt origin limit)^[n] q, fun q' => by simp [hheld, hq]⟩

theorem HoldsOne.getElem? (h : s.HoldsOne T) (hx : s.Holder T x) :
    ∃ q, s.resources[x]? = some {q} := by
  obtain ⟨q, hq⟩ := h x hx
  obtain ⟨held, hheld, -⟩ := mem_held_iff.mp ((hq q).mpr rfl)
  refine ⟨q, hheld.trans (congrArg some (ExtTreeSet.ext_mem fun q' => ?_))⟩
  rw [← mem_held_of_getElem? hheld, hq, eq_comm]
  simp

/-- Two owners that hold one resource each hold different ones, as long as ages are told apart. -/
theorem Consistent.eq_of_holdsOne (h : s.Consistent T limit) (hone : s.HoldsOne T)
    (hx : s.Holder T x) (hy : s.Holder T y) (hqx : q ∈ s.held x) (hqy : q ∈ s.held y) :
    x = y ∨ q.generation = limit := by
  obtain ⟨τ, hτ, rfl⟩ := h.each x hx q hqx
  obtain ⟨q', honly⟩ := hone y hy
  have hsame : τ x = τ y := ((honly _).mp hqy).trans ((honly _).mp (hτ.holds y hy)).symm
  exact hτ.apart x y hx hy hsame

end FlowState

namespace Checker
variable {k : Checker} {f : Function} {r : Regions} {path : List String} {n : Nat} {s : FlowState}
    {es : List Event}

/-- What the start has and what rearranging owners keeps holds at every point that a run comes to,
whatever it has found. -/
theorem Comes.rearranged {Q : FlowState → Prop} (hf : f.Fits k.types (k.signaturesFor f))
    (hentry : ∀ s, k.entryState f = .ok s → Q s) (hstep : ∀ origin n source s t,
      FlowState.Rearranges (f.Owns k.types) origin f.bindings.size n source s t → Q s → Q t)
    (h : k.Comes f r path n s es) : Q s := by
  have hkeeps : ∀ s t, FlowState.Keeps (f.Owns k.types) s t → Q s → Q t := fun s t hst =>
    hstep ⟨f.name, "", 0⟩ 0 some s t (hst.rearranges _ _)
  induction h with
  | start hl hs => exact hentry _ hs
  | op _ hb hi he ih =>
    obtain ⟨vs, u, hop, -, rfl⟩ := applyInstruction_iff.mp he
    have hfit := (hf.block hb).body _ (List.mem_of_getElem? hi)
    obtain ⟨m, source, hst, -⟩ := applyOp_rearranges hfit hop
    exact hkeeps _ _ (.keepLoans u _) (hstep _ m source _ u hst ih)
  | ending _ hb he ih =>
    obtain ⟨vs, u, hop, -, rfl⟩ := applyEnding_iff.mp he
    exact hkeeps _ _ ((applyTerminator_keeps hop).trans (.keepLoans u _)) ih
  | enter _ hb hm ih => exact hkeeps _ _ (.keepLoans _ _) ih

theorem Entered.holdsOne (h : k.Entered f s) : s.HoldsOne (f.Owns k.types) := fun x hx =>
    ⟨_, h.held x hx⟩

/-- At every point that a run along a path comes to, with violations or without and whatever the
regions by which it ends loans, each owner with a value holds one resource, and two owners hold the
same one only if its age is no longer told apart. -/
theorem Comes.owners_hold_apart
    (hf : WellFormed.checkFunction f k.types (k.signaturesFor f) = .ok ()) (hparams : f.ParamsTyped)
    (h : k.Comes f r path n s es) :
    (∀ x, s.Holder (f.Owns k.types) x → ∃ q, s.resources[x]? = some {q}) ∧
    ∀ x y q, s.Holder (f.Owns k.types) x → s.Holder (f.Owns k.types) y → q ∈ s.held x →
      q ∈ s.held y → x = y ∨ q.generation = f.bindings.size := by
  have hlimit : ∀ x, f.Owns k.types x → (0 : Int) < f.bindings.size := fun _ =>
    Function.Owns.limit_pos
  obtain ⟨hconsistent, hone⟩ : s.Consistent (f.Owns k.types) f.bindings.size ∧
      s.HoldsOne (f.Owns k.types) := by
    refine h.rearranged (Q := fun s => s.Consistent (f.Owns k.types) f.bindings.size ∧
      s.HoldsOne (f.Owns k.types))
      (WellFormed.checkFunction_inv hf) (fun s hs => ?_) fun origin n source s t hst hs => ?_
    · have hentered := entryState_entered hparams hs
      exact ⟨hentered.consistent, hentered.holdsOne⟩
    · exact ⟨hs.1.rearranges hst hlimit, hs.2.rearranges hst⟩
  exact ⟨fun x hx => hone.getElem? hx, fun x y q hx hy => hconsistent.eq_of_holdsOne hone hx hy⟩

end Checker

/-- A text is handed on in each round of a loop, read although it is gone, and made anew. -/
def Function.recycled : Function :=
  ofParts "recycled" [{ name := "a", type := 3, mutable := true },
    { name := "b", type := 3, mutable := true }]
    [{ label := "entry", body := [{ op := .init "a" none }],
       ending := some { terminator := .jump "round" } },
     { label := "round",
       body := [{ op := .move "b" "a" }, { op := .use "a" }, { op := .init "a" none }],
       ending := some { terminator := .branch "round" "done" none } },
     { label := "done", ending := some { terminator := .ret none } }]

namespace Checker

def recycledText (age : Int) : Resource := { origin := ⟨"recycled", "round", 2⟩, generation := age }

/-- In the second round a violation has been found, and the two texts come from the same point. They
are told apart by their age. -/
theorem owners_hold_apart_recycled : ∃ (r : Regions) (s : FlowState) (es : List Event),
    WellFormed.checkFunction .recycled basic.types (basic.signaturesFor .recycled) = .ok () ∧
    Function.recycled.ParamsTyped ∧ basic.Comes .recycled r ["round", "round", "entry"] 3 s es ∧
    Event.found es ≠ [] ∧
    s.resources["a"]? = some {recycledText 0} ∧ s.resources["b"]? = some {recycledText 1} ∧
    ∀ q ∈ s.held "a", q ∉ s.held "b" := by
  have hf : WellFormed.checkFunction .recycled basic.types (basic.signaturesFor .recycled) =
      .ok () := by decide
  have hparams : Function.recycled.ParamsTyped := fun p hp => by cases hp
  have hrun : (do
      let r ← Regions.compute .recycled .basic .lastUse
      let run ← basic.followTo .recycled r ["round", "round", "entry"] 3
      return (Event.found run.2 ≠ [] ∧ "a" ∈ run.1.ownersOf (recycledText 0) ∧
        "b" ∈ run.1.ownersOf (recycledText 1) : Bool) :
        Except Fault Bool) = .ok true := by decide +kernel
  obtain ⟨r, hr, hrun⟩ := Except.bind_inv hrun
  obtain ⟨⟨s, es⟩, hfollow, hrun⟩ := Except.bind_inv hrun
  obtain ⟨hes, ha, hb⟩ := of_decide_eq_true (Except.ok.inj hrun)
  have hpath : Function.recycled.IsPath ["round", "round", "entry"] :=
    ((Function.IsPath.singleton rfl).cons ⟨_, rfl, by decide⟩).cons ⟨_, rfl, by decide⟩
  have hcomes := comes_of_followTo hpath hfollow rfl (by decide)
  obtain ⟨hqa, hstatea⟩ := FlowState.mem_ownersOf.mp ha
  obtain ⟨hqb, hstateb⟩ := FlowState.mem_ownersOf.mp hb
  have hholda : s.Holder (Function.recycled.Owns basic.types) "a" :=
    ⟨⟨_, _, rfl, rfl, rfl, by decide⟩, hstatea⟩
  have hholdb : s.Holder (Function.recycled.Owns basic.types) "b" :=
    ⟨⟨_, _, rfl, rfl, rfl, by decide⟩, hstateb⟩
  obtain ⟨hone, hapart⟩ := Comes.owners_hold_apart hf hparams hcomes
  obtain ⟨qa, hresa⟩ := hone "a" hholda
  obtain ⟨qb, hresb⟩ := hone "b" hholdb
  obtain rfl : qa = recycledText 0 := by simpa using (FlowState.mem_held_of_getElem? hresa).mp hqa
  obtain rfl : qb = recycledText 1 := by simpa using (FlowState.mem_held_of_getElem? hresb).mp hqb
  refine ⟨r, s, es, hf, hparams, hcomes, hes, hresa, hresb, fun q hq hq' => ?_⟩
  obtain rfl : recycledText 0 = q := by simpa using (FlowState.mem_held_of_getElem? hresa).mp hq
  rcases hapart "a" "b" _ hholda hholdb hq hq' with heq | hold
  · exact absurd heq (by decide)
  · exact absurd hold (by decide)

end Checker

end Ownership

import Ownership.Proofs.Liveness
import Ownership.Proofs.Thinned

/-! # Loans up to the last use

A run that ends loans with the last use of their holders goes along with one that keeps them to the
end of scopes: at every point of a path it has the same states and just the loans whose holders are
live there, or are used nowhere. A holder that an operation uses is live before it, so nothing that
the operation reads is missing.
-/
namespace Ownership
open Std

namespace Regions
variable {f : Function} {types : TypeTable} {r : Regions} {l x : String} {holder : Option String}
    {b : Block} {n : Nat}

def keepsLoanAt (r : Regions) (holder : Option String) (label : String) (n : Nat) : Bool :=
  holder.all fun ref => r.isHeldFast ref || r.isLiveAt ref label n

theorem keepsLoanAt_of_lexical (hr : r.policy = .lexical) : r.keepsLoanAt holder l n = true := by
  cases holder <;> simp [keepsLoanAt, isHeldFast, hr]

/-- A loan stays in force if its holder, wherever it is live, is live elsewhere too. -/
theorem keepsLoanAt_mono {l' : String} {n' : Nat}
    (h : ∀ x, r.isLiveAt x l n = true → r.isLiveAt x l' n' = true)
    (hkeep : r.keepsLoanAt holder l n = true) : r.keepsLoanAt holder l' n' = true := by
  cases holder with
  | none => rfl
  | some x =>
    rcases Bool.or_eq_true_iff.mp hkeep with hfast | hlive
    · exact Bool.or_eq_true_iff.mpr (Or.inl hfast)
    · exact Bool.or_eq_true_iff.mpr (Or.inr (h x hlive))

theorem mem_unusedRefs : x ∈ r.unusedRefs ↔ r.isUnused x = true := by
  simp [unusedRefs, isUnused, ExtTreeSet.mem_filter]

namespace Computed
variable (h : Computed f types r)
include h

theorem keepsLoanAt_use (hb : f.blocks.get? l = some b) {i : Instruction} (hi : b.body[n]? = some i)
    (hx : x ∈ i.op.uses) (href : f.IsRef types x) : r.keepsLoanAt (some x) l n = true :=
  Bool.or_eq_true_iff.mpr (Or.inr ((h.isLiveAt_op hb hi).mpr (Or.inl ⟨hx, href⟩)))

/-- What is in force behind an operation was in force before it, or is held by what the operation
defines. -/
theorem keepsLoanAt_op (hb : f.blocks.get? l = some b) {i : Instruction} (hi : b.body[n]? = some i)
    (hkeep : r.keepsLoanAt holder l (n + 1) = true) :
    r.keepsLoanAt holder l n = true ∨ ∃ d ∈ i.op.defs, f.IsRef types d ∧ holder = some d := by
  cases holder with
  | none => exact Or.inl rfl
  | some x =>
    by_cases hdef : x ∈ i.op.defs ∧ f.IsRef types x
    · exact Or.inr ⟨x, hdef.1, hdef.2, rfl⟩
    · refine Or.inl (Bool.or_eq_true_iff.mpr
        ((Bool.or_eq_true_iff.mp hkeep).imp_right fun hlive => ?_))
      exact (h.isLiveAt_op hb hi).mpr (Or.inr ⟨hlive, hdef⟩)

/-- Under the last-use policy a loan of a reference is in force while the reference is live, or for
good if it is used nowhere. -/
theorem keepsLoanAt_iff (hr : r.policy = .lastUse) (href : f.IsRef types x) :
    r.keepsLoanAt (some x) l n = true ↔ r.isLiveAt x l n = true ∨ x ∈ r.unusedRefs := by
  have hx : r.refs.contains x = true := ExtTreeSet.contains_iff_mem.mpr (h.mem_refs.mpr href)
  rw [mem_unusedRefs, or_comm]
  simp [keepsLoanAt, isHeldFast, hr, hx]

end Computed

end Regions

namespace Checker
open FlowState
variable {k : Checker} {f : Function} {rl rd : Regions} {l : String} {path : List String} {n : Nat}
    {s : FlowState}
variable {es : List Event}

/-- The run by last uses goes along with the lexical one, and has fewer loans. -/
theorem Comes.thins (hf : f.Fits k.types (k.signaturesFor f)) (hd : rd.Computed f k.types)
    (hl : rl = { rd with policy := .lexical }) (h : k.Comes f rl path n s es)
    (hes : Event.found es = []) :
    ∃ s' es', k.Comes f rd path n s' es' ∧ Event.found es' = [] ∧
      Thins (fun x => rd.keepsLoanAt x (path.headD "") n = true) s s' := by
  have hlexical : ∀ l n x, rl.keepsLoanAt x l n = true := fun l n x =>
    Regions.keepsLoanAt_of_lexical (by rw [hl])
  induction h with
  | start hentry hs =>
    refine ⟨_, [], .start hentry hs, rfl, rfl, rfl, rfl, fun m => ?_⟩
    simp [entryState_loans hs m]
  | @op l path n s t es b i e h hb hi he ih =>
    obtain ⟨hes, u, hop, rfl⟩ := applyInstruction_clean he hes
    obtain ⟨s', es', hcomes, hes', hs⟩ := ih hes
    obtain rfl : b.label = l := Registry.name_of_get?_eq_some hb
    have hfit := (hf.block hb).body i (List.mem_of_getElem? hi)
    obtain ⟨u', hop', hu⟩ := performs_thinned (some rd) hs rfl (fun x => by rw [hl]; rfl) hfit
      (fun x hx href => hd.keepsLoanAt_use hb hi hx (Site.isRef_iff.mp href))
      (applyOp_nil_iff.mp hop)
    obtain ⟨es'', hes'', hcomes'⟩ := hcomes.op_clean hes' hb hi (applyOp_nil_iff.mpr hop')
    refine ⟨_, es'', hcomes', hes'', hu.endLoans (hlexical b.label (n + 1)) fun x hx => ?_⟩
    refine (hd.keepsLoanAt_op hb hi hx).imp_right ?_
    rintro ⟨d, hdef, href, rfl⟩
    exact ⟨d, hdef, Site.isRef_iff.mpr href, rfl⟩
  | @ending l path s t es b e h hb he ih =>
    obtain ⟨hes, u, hop, rfl⟩ := applyEnding_clean he hes
    obtain ⟨s', es', hcomes, hes', hs⟩ := ih hes
    obtain rfl : b.label = l := Registry.name_of_get?_eq_some hb
    obtain ⟨u', hop', hu⟩ := leaves_thinned (some rd) hs (applyTerminator_nil_iff.mp hop)
    obtain ⟨es'', hes'', hcomes'⟩ := hcomes.ending_clean hes' hb (applyTerminator_nil_iff.mpr hop')
    refine ⟨_, es'', hcomes', hes'',
      hu.endLoans (hlexical b.label (b.body.length + 1)) fun x hx => ?_⟩
    exact Regions.keepsLoanAt_mono (fun y hy => hd.isLiveAt_ending hb hy) hx
  | @enter l m path s es b h hb hm ih =>
    obtain ⟨s', es', hcomes, hes', hs⟩ := ih hes
    refine ⟨_, es', hcomes.enter hb hm, hes', hs.endLoans (hlexical m 0) fun x hx => ?_⟩
    exact Regions.keepsLoanAt_mono (fun y hy => hd.isLiveAt_successor hb hm hy) hx

/-- Along a path on which the lexical run finds nothing, the run by last uses finds nothing either.
At every point it has the same states, provenance and resources, and of the loans just those whose
reference is live there or used nowhere. -/
theorem lastUse_thins_lexical (hf : WellFormed.checkFunction f k.types (k.signaturesFor f) = .ok ())
    (hl : Regions.compute f k.types .lexical = .ok rl)
    (hd : Regions.compute f k.types .lastUse = .ok rd)
    (h : k.Comes f rl (l :: path) n s es) (hes : Event.found es = []) :
    (∃ s' es', k.Comes f rd (l :: path) n s' es') ∧ ∀ s' es', k.Comes f rd (l :: path) n s' es' →
      Event.found es' = [] ∧ s'.states = s.states ∧ s'.provenance = s.provenance ∧
      s'.resources = s.resources ∧
      ∀ m, m ∈ s'.loans ↔ m ∈ s.loans ∧
        ∃ x, m.ref = some x ∧ (rd.isLiveAt x l n = true ∨ x ∈ rd.unusedRefs) := by
  have hfits := WellFormed.checkFunction_inv hf
  obtain ⟨hcomputed, hpolicy, hother⟩ := Regions.compute_inv hd
  have hsame : rl = { rd with policy := .lexical } :=
    Except.ok.inj (hl.symm.trans (hother .lexical))
  obtain ⟨u, us, hcomes, hus, hthins⟩ := h.thins hfits hcomputed hsame hes
  refine ⟨⟨u, us, hcomes⟩, fun s' es' hcomes' => ?_⟩
  obtain ⟨rfl, rfl⟩ := hcomes.unique hcomes'
  refine ⟨hus, hthins.states, hthins.provenance, hthins.resources,
    fun m => (hthins.loans m).trans ?_⟩
  refine and_congr_right fun hm => ?_
  obtain ⟨x, hholder, href⟩ := h.kept heldByRefs_kept hfits hes m hm
  rw [hholder, List.headD_cons, hcomputed.keepsLoanAt_iff hpolicy href]
  simp

end Checker

/-- A number is lent to three references one after the other: to one that is used nowhere, to one
that is used before control goes on, and to one that is used behind it. -/
def Function.lentInTurn : Function :=
  ofParts "lentInTurn"
    [{ name := "x", type := 1 }, { name := "idle", type := 2 }, { name := "p", type := 2 },
      { name := "q", type := 2 }]
    [{ label := "entry",
       body := [{ op := .init "x" none }, { op := .borrow "x" .shared "idle" },
         { op := .borrow "x" .shared "p" },
         { op := .use "p" }],
       ending := some { terminator := .jump "next" } },
     { label := "next", body := [{ op := .borrow "x" .shared "q" }, { op := .use "q" }],
       ending := some { terminator := .ret none } }]

namespace Checker

/-- Behind the third borrow the lexical run has all three loans; by last uses the second reference
has lost its loan, and the one that is used nowhere has not. -/
theorem lastUse_thins_lentInTurn : ∃ (rl rd : Regions) (s s' : FlowState) (es es' : List Event),
    WellFormed.checkFunction .lentInTurn basic.types (basic.signaturesFor .lentInTurn) = .ok () ∧
    Regions.compute .lentInTurn .basic .lexical = .ok rl ∧
    Regions.compute .lentInTurn .basic .lastUse = .ok rd ∧
    basic.Comes .lentInTurn rl ["next", "entry"] 1 s es ∧ Event.found es = [] ∧
    s.loans.keys.map Loan.ref = [some "idle", some "p", some "q"] ∧
    basic.Comes .lentInTurn rd ["next", "entry"] 1 s' es' ∧ Event.found es' = [] ∧
    s'.states = s.states ∧
    ∀ m, m ∈ s'.loans ↔ m ∈ s.loans ∧ (m.ref = some "idle" ∨ m.ref = some "q") := by
  have hf : WellFormed.checkFunction .lentInTurn basic.types (basic.signaturesFor .lentInTurn) =
      .ok () := by decide
  have hrun : (do
      let rl ← Regions.compute .lentInTurn .basic .lexical
      let rd ← Regions.compute .lentInTurn .basic .lastUse
      let run ← basic.followTo .lentInTurn rl ["next", "entry"] 1
      return (Event.found run.2 = [] ∧
        run.1.loans.keys.map Loan.ref = [some "idle", some "p", some "q"] ∧
        rd.unusedRefs.toList = ["idle"] ∧ rd.isLiveAt "p" "next" 1 = false ∧
        rd.isLiveAt "q" "next" 1 = true : Bool) :
        Except Fault Bool) = .ok true := by decide +kernel
  obtain ⟨rl, hl, hrun⟩ := Except.bind_inv hrun
  obtain ⟨rd, hd, hrun⟩ := Except.bind_inv hrun
  obtain ⟨⟨s, es⟩, hfollow, hrun⟩ := Except.bind_inv hrun
  obtain ⟨hes, hrefs, hunused, hp, hq⟩ := of_decide_eq_true (Except.ok.inj hrun)
  have hcomes := comes_of_followTo ((Function.IsPath.singleton rfl).cons ⟨_, rfl, by decide⟩)
    hfollow rfl (by decide)
  obtain ⟨⟨s', es', hcomes'⟩, hthin⟩ := lastUse_thins_lexical hf hl hd hcomes hes
  obtain ⟨hes', hstates, -, -, hloans⟩ := hthin s' es' hcomes'
  refine ⟨rl, rd, s, s', es, es', hf, hl, hd, hcomes, hes, hrefs, hcomes', hes', hstates,
    fun m => ?_⟩
  rw [hloans]
  refine and_congr_right fun hm => ?_
  have hholder : m.ref ∈ s.loans.keys.map Loan.ref :=
    List.mem_map_of_mem (ExtTreeMap.mem_keys.mpr hm)
  have hidle : ∀ x, x ∈ rd.unusedRefs ↔ x = "idle" := by simp [← ExtTreeSet.mem_toList, hunused]
  simp only [hrefs, List.mem_cons, List.not_mem_nil, or_false] at hholder
  rcases hholder with h | h | h <;> simp [h, hidle, hp, hq]

end Checker

end Ownership

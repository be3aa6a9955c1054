import Ownership.Proofs.Agreement
import Ownership.Proofs.Fixpoint
import Ownership.Proofs.Scopes

/-! # Functions that mirror each other

Two functions that have the blocks in common that matter, and look alike to the operations of these
blocks, are analysed in the same way: each visit leads to the same progress, and so do all of them.
Their reports are then the same but for the explanation of violations.
-/
namespace Ownership
open Std

theorem Site.mem_bindingsOf {c : Site} {scope x : String} :
    x ∈ c.bindingsOf scope ↔ c.function.Drops scope x := by
  simp only [bindingsOf, Function.Drops, List.mem_map, List.mem_filter, List.contains_iff_mem,
    Function.mem_scopeDescendants, and_assoc]

structure Checker.SeesAlike (k k' : Checker) (f g : Function) : Prop where
  autoBorrow : k'.autoBorrow = k.autoBorrow
  binding : ∀ name, Except.Alike (Binding.SameIn k.types k'.types) (f.binding name) (g.binding name)
  size : g.bindings.size = f.bindings.size
  drops : ∀ scope x, g.Drops scope x ↔ f.Drops scope x
  signature : g.signature = f.signature
  types : f.signature.SameIn k.types k'.types
  callee : ∀ name, (k'.signaturesFor g).get? name = (k.signaturesFor f).get? name
  calleeTypes : ∀ name sig, (k.signaturesFor f).get? name = some sig → sig.SameIn k.types k'.types

/-- The two analyses of references tell the same about some blocks but for the explanation of
violations, and for some references the same about whether their loans end before their scopes. -/
structure Regions.AgreeOn (R H : String → Prop) (r r' : Regions)
    (E : Explains := (· = ·)) : Prop where
  isHeldFast : ∀ ref, H ref → r'.isHeldFast ref = r.isHeldFast ref
  isLiveIn : ∀ ref l, R l → r'.isLiveIn ref l = r.isLiveIn ref l
  isLiveAfter : ∀ ref l n, R l → r'.isLiveAfter ref l n = r.isLiveAfter ref l n
  explain : ∀ (loan : Loan) (span : Span) (l : String) (n : Int), R l →
    E (loan.explain span fun ref => r.nextUse ref l n)
    (loan.explain span fun ref => r'.nextUse ref l n)

namespace Regions.AgreeOn
variable {R H : String → Prop} {r r' : Regions} {E : Explains} {l : String} {s : FlowState}

/-- Where the references in question hold all loans, the same loans end behind a point. -/
theorem keepLoansAfter (h : r.AgreeOn R H r' E) (hl : R l) (hs : s.HeldBy H) (n : Int) :
    (s.keepLoans fun m => r'.keepsLoanAfter m.ref l n) = s.keepLoans fun m =>
      r.keepsLoanAfter m.ref l n := by
  apply FlowState.keepLoans_congr
  intro m hm
  cases hholder : m.ref with
  | none => rfl
  | some x =>
    have hfast := h.isHeldFast x (hs m hm x hholder)
    simp only [keepsLoanAfter, Option.all_some, hfast, h.isLiveAfter x l n hl]

theorem keepLoansOnEntry (h : r.AgreeOn R H r' E) (hl : R l) (hs : s.HeldBy H) :
    (s.keepLoans fun m => r'.keepsLoanOnEntry m.ref l) = s.keepLoans fun m =>
      r.keepsLoanOnEntry m.ref l := by
  apply FlowState.keepLoans_congr
  intro m hm
  cases hholder : m.ref with
  | none => rfl
  | some x =>
    have hfast := h.isHeldFast x (hs m hm x hholder)
    simp only [keepsLoanOnEntry, Option.all_some, hfast, h.isLiveIn x l hl]

end Regions.AgreeOn

structure Event.Like (E : Explains) (e e' : Event) : Prop where
  location : e'.location = e.location
  span : e'.span = e.span
  violations : List.Forall₂ (Violation.Like E) e.violations e'.violations
  refreshed : e'.refreshed = e.refreshed

/-- Two functions that have some blocks in common, which control does not leave and in which only
some references are defined, look alike to the operations of these blocks. -/
structure Checker.Mirrors (R H : String → Prop) (E : Explains) (k k' : Checker) (f g : Function)
    (r r' : Regions) : Prop extends k.SeesAlike k' f g where
  same : ∀ related, E related related
  regions : r.AgreeOn R H r' E
  entry : ∀ l, f.entryLabel = some l → R l
  block : ∀ l, R l → g.blocks.get? l = f.blocks.get? l
  next : ∀ l m, R l → f.Edge l m → R m
  defs : ∀ l b, R l → f.blocks.get? l = some b → ∀ i ∈ b.body, ∀ d ∈ i.op.defs, H d

namespace Checker.Mirrors
variable {R H : String → Prop} {E : Explains} {k k' : Checker} {f g : Function} {r r' : Regions}
    {b : Block} {l : String}
  {s : FlowState} (h : Mirrors R H E k k' f g r r')
include h

theorem name : g.name = f.name := congrArg Signature.name h.signature

theorem site (hb : R b.label) (n : Int) (span : Span) :
    (k.site f r b n span).Agrees E (k'.site g r' b n span) where
  same := h.same
  explain loan span := h.regions.explain loan span b.label n hb
  binding := h.binding
  size := h.size
  bindingsOf scope x := by
    rw [Site.mem_bindingsOf, Site.mem_bindingsOf]
    exact h.drops scope x
  signature := h.signature
  types := h.types
  location := by rw [Checker.site, Checker.site, h.name]
  span := rfl
  isLiveAfter := by
    funext ref
    exact h.regions.isLiveAfter ref b.label n hb

theorem agreesAt (n : Int) (span : Span) :
    k.AgreesAt k' (k.site f r b n span) (k'.site g r' b n span) where
  autoBorrow := h.autoBorrow
  signature := h.callee
  types := h.calleeTypes

theorem applyInstruction (hb : R b.label) (n : Int) {i : Instruction} (hdefs : ∀ d ∈ i.op.defs, H d)
    (hs : s.HeldBy H) : Access.AlikeFrom (Event.Like E)
      (k.applyInstruction r (k.site f r b n i.span) i)
      (k'.applyInstruction r' (k'.site g r' b n i.span) i) s := by
  have hsite := h.site hb n i.span
  refine (applyOp_alike hsite (h.agreesAt n i.span) i.op s).bind fun vs vs' u hop hvs => ?_
  have hkeep := h.regions.keepLoansAfter hb (applyOp_heldBy hs hdefs hop) n
  exact Or.inl ⟨_, _, _, rfl, congrArg (EStateM.Result.ok _) hkeep, hsite.location, rfl, hvs, rfl⟩

theorem applyEnding (hb : R b.label) (n : Int) (span : Span) (ending : Option Ending)
    (hs : s.HeldBy H) : Access.AlikeFrom (Event.Like E) (applyEnding r (k.site f r b n span) ending)
      (Checker.applyEnding r' (k'.site g r' b n span) ending) s := by
  have hsite := h.site hb n span
  refine (applyTerminator_alike hsite _ s).bind fun vs vs' u hop hvs => ?_
  have hkeep := h.regions.keepLoansAfter hb (applyTerminator_heldBy hs hop) n
  exact Or.inl ⟨_, _, _, rfl, congrArg (EStateM.Result.ok _) hkeep, hsite.location, rfl, hvs, rfl⟩

/-- Where each definition is one of the references in question, these go on holding all loans. -/
theorem applyFrom (hb : R b.label) (n : Int) (rest : List Instruction)
    (hdefs : ∀ i ∈ rest, ∀ d ∈ i.op.defs, H d) (hs : s.HeldBy H) :
    Access.AlikeFrom (List.Forall₂ (Event.Like E)) (k.applyFrom f r b n rest)
      (k'.applyFrom g r' b n rest) s := by
  induction rest generalizing n s with
  | nil =>
    exact (h.applyEnding hb n b.endingSpan b.ending hs).bind fun e e' t _ he =>
      Access.Alike.pure (List.Forall₂.cons he .nil) t
  | cons i rest ih =>
    obtain ⟨hi, hrest⟩ := List.forall_mem_cons.mp hdefs
    refine (h.applyInstruction hb n hi hs).bind fun e e' t ht he => ?_
    refine (ih (n + 1) hrest (applyInstruction_heldBy hs hi ht)).bind fun es es' u _ hes => ?_
    exact Access.Alike.pure (List.Forall₂.cons he hes) u

/-- A block in common has the same effect in both functions. -/
theorem transferBlock (hl : R l) (hs : s.HeldBy H) :
    Except.Alike (fun x y => y.1 = x.1 ∧ List.Forall₂ (Event.Like E) x.2 y.2)
      (k.transferBlock f r l s) (k'.transferBlock g r' l s) := by
  cases hb : f.blocks.get? l with
  | none =>
    have hb' := (h.block l hl).trans hb
    rw [Checker.transferBlock, Checker.transferBlock, Function.block, Function.block, hb, hb']
    exact Or.inr ⟨_, rfl, rfl⟩
  | some b =>
    have hb' := (h.block l hl).trans hb
    have hlabel : b.label = l := Registry.name_of_get?_eq_some hb
    rw [Checker.transferBlock, Checker.transferBlock, Except.bind_of_ok (Function.block_iff.mpr hb),
      Except.bind_of_ok (Function.block_iff.mpr hb')]
    obtain ⟨es, es', t, hrun, hrun', hes⟩ | ⟨e, t, hrun, hrun'⟩ :=
      h.applyFrom (hlabel.symm ▸ hl) 0 b.body (h.defs l b hl hb) hs
    · rw [hrun, hrun']
      exact .pure ⟨rfl, hes⟩
    · rw [hrun, hrun']
      exact Or.inr ⟨e, rfl, rfl⟩

theorem enter (hl : R l) (hs : s.HeldBy H) : enter r' s l = Checker.enter r s l :=
  h.regions.keepLoansOnEntry hl hs

theorem successors (hl : R l) : g.successors l = f.successors l := by
  rw [Function.successors, Function.successors, Function.block, Function.block, h.block l hl]

theorem of_reachable (hl : f.Reachable l) : R l := by
  obtain ⟨entry, hentry, hpath⟩ := hl
  induction hpath with
  | refl => exact h.entry entry hentry
  | tail _ hedge ih => exact h.next _ _ ih hedge

theorem invariant : k.Invariant f r fun l s => R l ∧ s.HeldBy H where
  entry l s hl hs := ⟨h.entry l hl, fun m hm => absurd hm (entryState_loans hs m)⟩
  step l s t es m hs hrun hedge := by
    obtain ⟨b, hb, -⟩ := transferBlock_iff.mp hrun
    exact ⟨h.next l m hs.1 hedge,
      (transferBlock_heldBy hs.2 hb (h.defs l b hs.1 hb) hrun).keepLoans _⟩
  merge l s t hs ht := ⟨hs.1, hs.2.merge ht.2⟩

theorem foldl_flowInto {ms : List String} (hms : ∀ m ∈ ms, R m) {out : FlowState}
    (hout : out.HeldBy H) (p : Progress) :
    ms.foldl (flowInto r' out) p = ms.foldl (flowInto r out) p := by
  apply List.foldl_ext
  intro p m hm
  rw [flowInto, flowInto, h.enter (hms m hm) hout]

/-- A visit leads to the same progress. -/
theorem visit {p : Progress} (hp : p.All fun l s => R l ∧ s.HeldBy H) (hl : R l) :
    k'.visit g r' p l = k.visit f r p l := by
  rw [Checker.visit, Checker.visit]
  cases hs : p.inStates[l]? with
  | none => rfl
  | some s =>
    have hheld := (hp l s hs).2
    dsimp only
    obtain ⟨⟨t, es⟩, ⟨t', es'⟩, hrun, hrun', hsame, -⟩ | ⟨e, hrun, hrun'⟩ :=
      h.transferBlock hl hheld
    · obtain ⟨b, hb, -⟩ := transferBlock_iff.mp hrun
      have hsuccessors : f.successors l = .ok b.successors :=
        Function.successors_iff.mpr ⟨b, hb, rfl⟩
      have hflow := h.foldl_flowInto (fun m hm => h.next l m hl ⟨b, hb, hm⟩)
        (transferBlock_heldBy hheld hb (h.defs l b hl hb) hrun)
      cases hsame
      rw [Except.bind_of_ok hrun, Except.bind_of_ok hrun', h.successors hl,
        Except.bind_of_ok hsuccessors, Except.bind_of_ok hsuccessors, hflow]
    · rw [Except.bind_of_error hrun, Except.bind_of_error hrun']

/-- So do any number of visits. -/
theorem visitAll {order : List String} (horder : ∀ l ∈ order, R l) (n : Nat)
    {p : Progress} (hp : p.All fun l s => R l ∧ s.HeldBy H) :
    k'.visitAll g r' order n p = k.visitAll f r order n p := by
  induction n generalizing p with
  | zero => rfl
  | succ n ih =>
    rw [Checker.visitAll, Checker.visitAll]
    cases hnext : order.find? p.waiting.contains with
    | none => rfl
    | some l =>
      dsimp only
      rw [h.visit hp (horder l (List.mem_of_find?_eq_some hnext))]
      cases hvisit : k.visit f r p l with
      | error e => rw [Except.bind_of_error rfl, Except.bind_of_error rfl]
      | ok p' =>
        rw [Except.bind_of_ok rfl, Except.bind_of_ok rfl]
        exact ih (visit_all h.invariant hp hvisit)

theorem entryState : k'.entryState g = k.entryState f := by
  have hbind : ∀ p ∈ f.signature.params, ∀ s,
      k'.bindParam g s p = k.bindParam f s p := fun p hp s => by
    simp only [bindParam, h.types.ofParam? hp, h.types.isDuplicable p hp, h.signature, h.name]
  rw [Checker.entryState, Checker.entryState, h.signature]
  exact Except.foldlM_congr _ hbind _

end Checker.Mirrors

structure Diagnostic.Like (E : Explains) (d d' : Diagnostic) : Prop where
  message : d'.message = d.message
  kind : d'.kind = d.kind
  subject : d'.subject = d.subject
  location : d'.location = d.location
  span : d'.span = d.span
  related : E d.related d'.related

theorem Diagnostic.eq_of_like {ds ds' : List Diagnostic}
    (h : List.Forall₂ (Diagnostic.Like (· = ·)) ds ds') : ds = ds' := by
  induction h with
  | nil => rfl
  | @cons d d' _ _ hd _ ih =>
    have hsame : d = d' := by
      cases hd
      cases d
      cases d'
      simp_all
    rw [hsame, ih]

namespace Event
variable {E : Explains}

theorem fresh_like {vs vs' : List Violation} (h : List.Forall₂ (Violation.Like E) vs vs')
    (blamed : Names) : List.Forall₂ (Violation.Like E) (fresh vs blamed).1 (fresh vs' blamed).1 ∧
      (fresh vs' blamed).2 = (fresh vs blamed).2 := by
  induction h generalizing blamed with
  | nil => exact ⟨.nil, rfl⟩
  | cons hv _ ih =>
    simp only [fresh, hv.kind, hv.subject]
    split
    · split
      · exact ih blamed
      · exact ⟨.cons hv (ih _).1, (ih _).2⟩
    · exact ⟨.cons hv (ih blamed).1, (ih blamed).2⟩

theorem diagnostics_like {es es' : List Event} (h : List.Forall₂ (Event.Like E) es es')
    (blamed : Names) :
    List.Forall₂ (Diagnostic.Like E) (diagnostics es blamed) (diagnostics es' blamed) := by
  induction h generalizing blamed with
  | nil => exact .nil
  | @cons e e' es es' he _ ih =>
    obtain ⟨hfresh, hblamed⟩ := fresh_like he.violations blamed
    rw [diagnostics, diagnostics]
    simp only [hblamed, he.refreshed]
    refine List.rel_append ?_ (ih _)
    rw [he.location, he.span]
    refine List.rel_map (fun v v' hv => ?_) hfresh
    exact ⟨hv.message, hv.kind, congrArg some hv.subject, rfl, rfl, hv.related⟩

end Event

inductive Outcome.Like (E : Explains) : Outcome → Outcome → Prop
  | malformed (problem : Malformed) : Outcome.Like E (.malformed problem) (.malformed problem)
  | analysed (visits blocks : Nat) {ds ds' : List Diagnostic}
      (h : List.Forall₂ (Diagnostic.Like E) ds ds') :
    Outcome.Like E (.analysed visits blocks ds) (.analysed visits blocks ds')

structure FunctionReport.Like (E : Explains) (p p' : FunctionReport) : Prop where
  name : p'.name = p.name
  outcome : p.outcome.Like E p'.outcome

theorem FunctionReport.Like.eq {p p' : FunctionReport} (h : p.Like (· = ·) p') : p' = p := by
  obtain ⟨name, outcome⟩ := p
  obtain ⟨name', outcome'⟩ := p'
  obtain ⟨rfl, houtcome⟩ := h
  cases houtcome with
  | malformed problem => rfl
  | analysed visits blocks hds => rw [Diagnostic.eq_of_like hds]

namespace Checker.Mirrors
variable {R H : String → Prop} {E : Explains} {k k' : Checker} {f g : Function} {r r' : Regions}
    {l : String}
  (h : Mirrors R H E k k' f g r r')
include h

/-- From the same progress the same diagnostics are made. -/
theorem diagnose {a : Analysis} (hfunction : a.function = f) (hregions : a.regions = r)
    (ha : ∀ (l : String) (s : FlowState), a.inStates[l]? = some s → R l ∧ s.HeldBy H) :
    Except.Alike (List.Forall₂ (Diagnostic.Like E)) (k.diagnose a)
      (k'.diagnose { a with function := g, regions := r' }) := by
  subst hfunction hregions
  have hevents : ∀ l, Except.Alike (List.Forall₂ (Event.Like E)) (k.eventsOf a l)
      (k'.eventsOf { a with function := g, regions := r' } l) := by
    intro l
    rw [eventsOf, eventsOf]
    cases hs : a.inStates[l]? with
    | none => exact Or.inr ⟨_, rfl, rfl⟩
    | some s => exact (h.transferBlock (ha l s hs).1 (ha l s hs).2).bind fun x y hxy => .pure hxy.2
  refine Except.Alike.bind (Except.Alike.mapM a.order fun l _ => ?_) fun ds ds' hds =>
    .pure (List.rel_flatten hds)
  exact (hevents l).bind fun es es' hes => .pure (Event.diagnostics_like hes ∅)

section WellFormed
variable (hf : WellFormed.checkFunction f k.types (k.signaturesFor f) = .ok ())
include hf

/-- The same number of visits comes to the same. -/
theorem visits {entry : String} {rest : List String}
    (horder : f.reversePostorder = .ok (entry :: rest)) {s : FlowState}
    (hs : k.entryState f = .ok s) (n : Nat) :
    k'.visitAll g r' (entry :: rest) n (.start entry s) =
      k.visitAll f r (entry :: rest) n (.start entry s) := by
  have hfits := WellFormed.checkFunction_inv hf
  obtain ⟨_, _, horder', hentry, -⟩ := Function.reversePostorder_spec hfits
  cases horder.symm.trans horder'
  exact h.visitAll (fun l hl =>
    h.of_reachable (((Function.nodup_reversePostorder horder).2 l).mp hl)) n
      (Progress.start_all (h.invariant.entry entry s hentry hs))

variable (hg : WellFormed.checkFunction g k'.types (k'.signaturesFor g) = .ok ())
variable (hr : Regions.compute f k.types k.policy = .ok r)
    (hr' : Regions.compute g k'.types k'.policy = .ok r')
variable (horder : g.reversePostorder = f.reversePostorder)
include hg hr hr' horder

/-- If as many visits as may be made come to the same, the analysis is the same but for the function
and the references that it is about. -/
theorem analyze (hvisits : ∀ entry rest s, f.reversePostorder = .ok (entry :: rest) →
    k.entryState f = .ok s →
      k'.visitAll g r' (entry :: rest) (visitBound g) (.start entry s) =
        k.visitAll f r (entry :: rest) (visitBound f) (.start entry s)) :
    k'.analyze g = (k.analyze f).map fun a => { a with function := g, regions := r' } := by
  obtain ⟨entry, rest, hentry, -⟩ :=
    Function.reversePostorder_spec (WellFormed.checkFunction_inv hf)
  rw [analyze_eq_visits hf hr hentry, analyze_eq_visits hg hr' (horder.trans hentry), h.entryState]
  cases hs : k.entryState f with
  | error e =>
    rw [Except.bind_of_error rfl, Except.bind_of_error rfl]
    rfl
  | ok s =>
    have hsame := hvisits entry rest s hentry hs
    rw [Except.bind_of_ok rfl, Except.bind_of_ok rfl]
    cases hrun : k.visitAll f r (entry :: rest) (visitBound f) (.start entry s) with
    | error e =>
      rw [Except.bind_of_error (hsame.trans hrun), Except.bind_of_error rfl]
      rfl
    | ok p =>
      rw [Except.bind_of_ok (hsame.trans hrun), Except.bind_of_ok rfl]
      rfl

/-- If as many visits may be made, the reports are alike. -/
theorem checkFunction (hbound : visitBound g = visitBound f) :
    Except.Alike (FunctionReport.Like E) (k.checkFunction f) (k'.checkFunction g) := by
  have hanalyze := h.analyze hf hg hr hr' horder fun entry rest s hentry hs => by
    rw [hbound, h.visits hf hentry hs]
  rw [Checker.checkFunction, Checker.checkFunction, hanalyze]
  cases ha : k.analyze f with
  | error e =>
    rw [Except.map]
    cases e with
    | malformed problem => exact .pure ⟨h.name, .malformed problem⟩
    | _ => exact Or.inr ⟨_, rfl, rfl⟩
  | ok a =>
    have hsolves := analyze_solves hf hr ha
    have hdiagnose :=
      h.diagnose hsolves.function hsolves.regions fun l s => analyze_invariant hf hr h.invariant ha
    exact hdiagnose.bind fun ds ds' hds => .pure ⟨h.name, .analysed _ _ hds⟩

end WellFormed

end Checker.Mirrors

end Ownership

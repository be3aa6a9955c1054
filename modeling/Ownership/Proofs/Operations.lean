import Ownership.Check.Transfer
import Ownership.Proofs.WellFormed

/-! # Outcomes of operations

What passing an argument, taking over loans, an operation and a terminator come to, in terms of the
accesses they are made of.
-/
namespace Ownership
open Std

theorem Except.filterM_eq_nil {α : Type} {p : α → Except Fault Bool} {l : List α} :
    l.filterM p = .ok [] ↔ ∀ a ∈ l, p a = .ok false := by
  have haux : ∀ (l acc : List α), l.filterAuxM p acc = .ok [] ↔ acc = [] ∧
      ∀ a ∈ l, p a = .ok false := by
    intro l
    induction l with
    | nil => intro acc; simp [List.filterAuxM, pure, Except.pure]
    | cons a l ih =>
      intro acc
      cases ha : p a with
      | error e => simp [List.filterAuxM, ha, bind, Except.bind]
      | ok keep =>
        have hstep : (a :: l).filterAuxM p acc = l.filterAuxM p (cond keep (a :: acc) acc) := by
          simp [List.filterAuxM, ha, bind, Except.bind]
        rw [hstep, ih]
        cases keep <;> simp [ha]
  have hrun : l.filterM p = (l.filterAuxM p []).map List.reverse := by
    rw [List.filterM]
    cases l.filterAuxM p [] <;> rfl
  rw [hrun]
  cases h : l.filterAuxM p [] with
  | error e =>
    have := haux l []
    simp only [h, reduceCtorEq, true_and, false_iff] at this
    simpa [Except.map] using this
  | ok kept =>
    have := haux l []
    simp only [h, Except.ok.injEq, true_and] at this
    simpa [Except.map] using this

/-- The binding that an operation gives a value which it may have to overwrite. -/
def Op.assigned? : Op → Option String
  | .init binding _ => some binding
  | .move dest _ => some dest
  | .copy dest _ => some dest
  | .call c => c.dest
  | _ => none

namespace Passed
variable (p : Passed)

@[simp] theorem blame_violations (v : Violation) :
    (p.blame v).violations = p.violations ++ [v] := rfl
@[simp] theorem blame_lent (v : Violation) : (p.blame v).lent = p.lent := rfl
@[simp] theorem blame_reborrows (v : Violation) : (p.blame v).reborrows = p.reborrows := rfl

def addLent (arg : String) (loan : Loan) : Passed := { p with lent := p.lent.insert arg loan }

def addReborrow (loan : Loan) : Passed := { p with reborrows := loan :: p.reborrows }

@[simp] theorem addLent_violations (arg : String) (loan : Loan) :
    (p.addLent arg loan).violations = p.violations := rfl
@[simp] theorem addReborrow_violations (loan : Loan) :
    (p.addReborrow loan).violations = p.violations := rfl

end Passed

namespace Checker
variable {k : Checker} {c : Site} {s t : FlowState} {p q : Passed} {arg callee : String}
    {exclusive : Bool}

def kindFor (exclusive : Bool) : LoanKind := if exclusive then .exclusive else .shared

theorem passValue_iff : (passValue c p arg).run s = .ok q t ↔
    (∃ v, (c.moveOut arg).run s = .ok (some v) t ∧ q = p.blame v) ∨
      ((c.moveOut arg).run s = .ok none t ∧ q = p) := by
  constructor
  · intro h
    obtain ⟨taken, u, hm, h⟩ := Access.bind_inv h
    cases taken with
    | some v => cases h; exact Or.inl ⟨v, hm, rfl⟩
    | none => cases h; exact Or.inr ⟨hm, rfl⟩
  · rintro (⟨v, hm, rfl⟩ | ⟨hm, rfl⟩) <;> simp [passValue, hm]

theorem passOwner_iff : (passOwner c p arg exclusive).run s = .ok q t ↔
    ∃ b, c.function.binding arg = .ok b ∧
      ((∃ v, (c.lend arg (kindFor exclusive) b.mutable).run s = .ok (.error v) t ∧ q = p.blame v) ∨
        (∃ loan, (c.lend arg (kindFor exclusive) b.mutable).run s = .ok (.ok loan) t ∧
          q = p.addLent arg loan)) := by
  constructor
  · intro h
    obtain ⟨result, u, hl, h⟩ := Access.bind_inv h
    obtain ⟨b, hb, hl⟩ := Access.lift_bind_inv hl
    refine ⟨b, hb, ?_⟩
    cases result with
    | error v => cases h; exact Or.inl ⟨v, hl, rfl⟩
    | ok loan => cases h; exact Or.inr ⟨loan, hl, rfl⟩
  · rintro ⟨b, hb, ⟨v, hl, rfl⟩ | ⟨loan, hl, rfl⟩⟩ <;> rw [kindFor] at hl <;>
      simp [passOwner, Site.borrowTemporary, hb, hl, Passed.addLent]

theorem passReference_iff : (passReference c callee p arg exclusive).run s = .ok q t ↔
    (∃ v, c.readViolation s arg "use" = some v ∧ q = p.blame v ∧ t = s) ∨
      (c.readViolation s arg "use" = none ∧ ∃ writes, c.isExclusiveRef arg = .ok writes ∧
        ((exclusive = true ∧ writes = false ∧
          q = p.blame (.sharedForExclusive arg callee) ∧ t = s) ∨
          ((exclusive = true → writes = true) ∧
            ((∃ v, (c.lend arg (kindFor exclusive) true).run s = .ok (.error v) t ∧ q = p.blame v) ∨
              (∃ loan, (c.lend arg (kindFor exclusive) true).run s = .ok (.ok loan) t ∧
                q = p.addReborrow loan))))) := by
  constructor
  · intro h
    unfold passReference at h
    rw [EStateM.run_bind, Site.run_read] at h
    cases hv : c.readViolation s arg "use" with
    | some v => rw [hv] at h; cases h; exact Or.inl ⟨v, rfl, rfl, rfl⟩
    | none =>
      rw [hv] at h
      obtain ⟨writes, hm, h⟩ := Access.lift_bind_inv h
      refine Or.inr ⟨rfl, writes, hm, ?_⟩
      split at h
      · rename_i hbad
        simp only [Bool.and_eq_true, Bool.not_eq_eq_eq_not, Bool.not_true] at hbad
        cases h
        exact Or.inl ⟨hbad.1, hbad.2, rfl, rfl⟩
      · rename_i hgood
        obtain ⟨result, u, hl, h⟩ := Access.bind_inv h
        refine Or.inr ⟨by simpa using hgood, ?_⟩
        cases result with
        | error v => cases h; exact Or.inl ⟨v, hl, rfl⟩
        | ok loan => cases h; exact Or.inr ⟨loan, hl, rfl⟩
  · rintro (⟨v, hv, rfl, rfl⟩ | ⟨hv, writes, hm, ⟨rfl, rfl, rfl, rfl⟩ | ⟨hgood, hl⟩⟩)
    · simp [passReference, hv]
    · simp [passReference, hv, hm]
    · have hgood : ¬(exclusive = true ∧ writes = false) := fun h => by simp [hgood h.1] at h
      rw [kindFor] at hl
      obtain ⟨v, hl, rfl⟩ | ⟨loan, hl, rfl⟩ := hl <;>
        simp [passReference, hv, hm, hgood, Site.reborrowTemporary, hl, Passed.addReborrow]

inductive Manner
  | value
  | reference (exclusive : Bool)
  | owner (exclusive : Bool)
deriving DecidableEq

def manner (k : Checker) (c : Site) (arg : String) (param : Param) : Except Fault Manner := do
  match ← c.types.fetch param.type with
  | .ref _ exclusive _ =>
    if ← c.isRef arg then return .reference exclusive
    else if k.autoBorrow then return .owner exclusive
    else return .value
  | _ => return .value

def Manner.pass (c : Site) (callee : String) (p : Passed) (arg : String) : Manner → Access Passed
  | .value => passValue c p arg
  | .reference exclusive => passReference c callee p arg exclusive
  | .owner exclusive => passOwner c p arg exclusive

theorem passArg_iff {param : Param} : (k.passArg c callee p arg param).run s = .ok q t ↔
    ∃ m, k.manner c arg param = .ok m ∧ (m.pass c callee p arg).run s = .ok q t := by
  unfold passArg manner
  cases c.types.fetch param.type with
  | error e => exact ⟨nofun, nofun⟩
  | ok d =>
    cases d with
    | ref inner exclusive lifetime =>
      change (EStateM.run (do let isRef ← liftM (c.isRef arg); _) s = _) ↔ _
      cases hr : c.isRef arg with
      | error e => exact ⟨nofun, nofun⟩
      | ok isRef =>
        cases isRef with
        | true =>
          exact ⟨fun h => ⟨.reference exclusive, rfl, h⟩, fun ⟨_, hm, h⟩ => by cases hm; exact h⟩
        | false =>
          cases ha : k.autoBorrow with
          | true =>
            exact ⟨fun h => ⟨.owner exclusive, rfl, h⟩, fun ⟨_, hm, h⟩ => by cases hm; exact h⟩
          | false => exact ⟨fun h => ⟨.value, rfl, h⟩, fun ⟨_, hm, h⟩ => by cases hm; exact h⟩
    | _ => exact ⟨fun h => ⟨.value, rfl, h⟩, fun ⟨_, hm, h⟩ => by cases hm; exact h⟩

def inheritedBy (dest : String) (inherited : Loans × Names) (s : FlowState) : FlowState :=
  (s.addLoans inherited.1).setProvenance dest inherited.2

theorem receive_iff {dest : String} {inherited : Loans × Names} {vs : List Violation} :
    (receive c dest inherited).run s = .ok vs t ↔
      ∃ refused w isRef, (c.store dest).run s = .ok refused w ∧ c.isRef dest = .ok isRef ∧
        vs = refused.toList ∧
        t = if isRef = true ∧ w.stateOf dest = .owned then inheritedBy dest inherited w else w := by
  constructor
  · intro h
    obtain ⟨refused, w, hr, h⟩ := Access.bind_inv h
    obtain ⟨isRef, hd, h⟩ := Access.lift_bind_inv h
    refine ⟨refused, w, isRef, hr, hd, ?_⟩
    cases isRef with
    | false => cases h; simp
    | true =>
      simp only [↓reduceIte, EStateM.run_bind, EStateM.run_get, FlowState.isOwned, beq_iff_eq] at h
      split at h <;> rename_i ho <;> cases h <;> simp [ho, inheritedBy]
  · rintro ⟨refused, w, isRef, hr, hd, rfl, rfl⟩
    cases isRef with
    | false => simp [receive, hr, hd]
    | true =>
      by_cases ho : w.stateOf dest = .owned <;>
        simp [receive, hr, hd, ho, FlowState.isOwned, inheritedBy]

def passAll (k : Checker) (c : Site) (callee : String) (args : List (String × Param)) (p : Passed) :
    Access Passed :=
  args.foldlM (fun p (arg, param) => k.passArg c callee p arg param) p

theorem passAll_cons_iff {param : Param} {args : List (String × Param)} :
    (k.passAll c callee ((arg, param) :: args) p).run s = .ok q t ↔
      ∃ m p' u, k.manner c arg param = .ok m ∧ (m.pass c callee p arg).run s = .ok p' u ∧
        (k.passAll c callee args p').run u = .ok q t := by
  rw [passAll, List.foldlM_cons]
  constructor
  · intro h
    obtain ⟨p', u, hp, h⟩ := Access.bind_inv h
    obtain ⟨m, hm, hp⟩ := passArg_iff.mp hp
    exact ⟨m, p', u, hm, hp, h⟩
  · rintro ⟨m, p', u, hm, hp, h⟩
    rw [Access.run_bind_of_ok (passArg_iff.mpr ⟨m, hm, hp⟩)]
    exact h

theorem applyCall_iff {call : Call} {vs : List Violation} : (k.applyCall c call).run s = .ok vs t ↔
    ∃ sig passed u, (k.signaturesFor c.function).get? call.function = some sig ∧
      (k.passAll c call.function (call.args.zip sig.params) {}).run s = .ok passed u ∧
      ((call.dest = none ∧ vs = passed.violations ∧ t = u.removeLoans passed.loans) ∨
        (∃ dest inherited ws, call.dest = some dest ∧
          inheritAll c sig call passed dest u = .ok inherited ∧
          (receive c dest inherited).run (u.removeLoans passed.loans) = .ok ws t ∧
          vs = passed.violations ++ ws)) := by
  constructor
  · intro h
    unfold applyCall at h
    cases hsig : (k.signaturesFor c.function).get? call.function with
    | none => rw [hsig] at h; cases h
    | some sig =>
      rw [hsig] at h
      obtain ⟨passed, u, hp, h⟩ := Access.bind_inv h
      refine ⟨sig, passed, u, rfl, hp, ?_⟩
      cases hdest : call.dest with
      | none => rw [hdest] at h; cases h; exact Or.inl ⟨rfl, rfl, rfl⟩
      | some dest =>
        rw [hdest] at h
        obtain ⟨inherited, hi, h⟩ := Access.lift_bind_inv h
        rw [EStateM.run_bind, EStateM.run_modify] at h
        obtain ⟨ws, w, hr, h⟩ := Access.bind_inv h
        cases h
        exact Or.inr ⟨dest, inherited, ws, rfl, hi, hr, rfl⟩
  · rintro ⟨sig, passed, u, hsig, hp, ⟨hdest, rfl, rfl⟩ | ⟨dest, inherited, ws, hdest, hi, hr, rfl⟩⟩
    · rw [passAll] at hp
      simp [applyCall, hsig, hp, hdest]
    · rw [passAll] at hp
      simp [applyCall, hsig, hp, hdest, hi, hr]

theorem run_toList_iff {x : Access (Option Violation)} {vs : List Violation} :
    (do return (← x).toList : Access (List Violation)).run s = .ok vs t ↔
      ∃ v, x.run s = .ok v t ∧ vs = v.toList := by
  constructor
  · intro h
    obtain ⟨v, u, hx, h⟩ := Access.bind_inv h
    cases h
    exact ⟨v, hx, rfl⟩
  · rintro ⟨v, hx, rfl⟩
    simp [hx]

theorem applyOp_write_some_iff {target value : String} {vs : List Violation} :
    (k.applyOp c (.write target (some value))).run s = .ok vs t ↔
      ∃ taken u refused, (c.moveOut value).run s = .ok taken u ∧
        (c.writeThrough target).run u = .ok refused t ∧ vs = taken.toList ++ refused.toList := by
  constructor
  · intro h
    obtain ⟨taken, u, hm, h⟩ := Access.bind_inv h
    obtain ⟨refused, w, hw, h⟩ := Access.bind_inv h
    cases h
    exact ⟨taken, u, refused, hm, hw, rfl⟩
  · rintro ⟨taken, u, refused, hm, hw, rfl⟩
    simp [applyOp, hm, hw]

def KeepsPromise (c : Site) (lt : Lifetime) : Prop :=
  ∃ promised, Lifetime.promised? c.types c.function.signature = .ok promised ∧
    ∀ required ∈ promised,
    ∃ order, LifetimeOrder.ofSignature c.types c.function.signature = .ok order ∧
      order.satisfies (order.normalize lt) required = true

theorem filterM_owners_eq_nil {held : List (Loan × Span)} :
    held.filterM (fun (loan, _) => return !(← c.isRef loan.place)) = .ok [] ↔
      ∀ e ∈ held, c.isRef e.1.place = .ok true := by
  have hone : ∀ place, (do return !(← c.isRef place) : Except Fault Bool) = .ok false ↔
      c.isRef place = .ok true := by
    intro place
    cases c.isRef place with
    | error e => exact ⟨nofun, nofun⟩
    | ok isRef => cases isRef <;> simp [bind, Except.bind, pure, Except.pure]
  simp only [Except.filterM_eq_nil, hone]

/-- What a reference holds, listed in any order, is on references only. -/
theorem forall_held_isRef_iff {value : String} (le : Loan × Span → Loan × Span → Bool) :
    (∀ e ∈ sortBy le (s.loansHeldBy value).toList, c.isRef e.1.place = .ok true) ↔
      ∀ l ∈ s.loans, l.ref = some value → c.isRef l.place = .ok true := by
  simp only [mem_sortBy]
  constructor
  · intro h l hl href
    obtain ⟨e, he, rfl⟩ :=
      Loans.exists_mem_toList.mpr ⟨l, FlowState.mem_loansHeldBy.mpr ⟨hl, href⟩, rfl⟩
    exact h e he
  · intro h e he
    obtain ⟨hl, href⟩ := FlowState.mem_loansHeldBy.mp (Loans.mem_of_mem_toList he)
    exact h e.1 hl href

/-- A reference is returned without complaint if what it refers to is no local owner and lives long
enough. -/
theorem returnReference_nil_iff {value : String} : returnReference c value s = .ok [] ↔
    (∀ l ∈ s.loans, l.ref = some value → c.isRef l.place = .ok true) ∧
    KeepsPromise c (s.provenanceOf value) := by
  constructor
  · intro h
    obtain ⟨owners, ho, h⟩ := Except.bind_inv h
    cases owners with
    | cons e rest => cases h
    | nil =>
      obtain ⟨promised, hp, h⟩ := Except.bind_inv h
      refine ⟨(forall_held_isRef_iff _).mp (filterM_owners_eq_nil.mp ho), promised, hp, ?_⟩
      cases promised with
      | none => simp
      | some required =>
        rintro _ ⟨⟩
        obtain ⟨order, hord, h⟩ := Except.bind_inv h
        dsimp only at h
        split at h
        · exact ⟨order, hord, by assumption⟩
        · cases h
  · rintro ⟨hrefs, promised, hp, hkeeps⟩
    have ho := filterM_owners_eq_nil.mpr
      ((forall_held_isRef_iff fun a b => (compare a.1.origin b.1.origin).isLE).mpr hrefs)
    refine (Except.bind_of_ok ho).trans ((Except.bind_of_ok hp).trans ?_)
    cases promised with
    | none => rfl
    | some required =>
      obtain ⟨order, hord, hsat⟩ := hkeeps required rfl
      refine (Except.bind_of_ok hord).trans ?_
      simp [hsat, pure, Except.pure]

/-- What is wrong with a returned reference is never its state. -/
theorem returnReference_kind {value : String} {vs : List Violation}
    (h : returnReference c value s = .ok vs) :
    ∀ v ∈ vs, v.kind = .danglingReference ∨ v.kind = .lifetimeMismatch := by
  obtain ⟨owners, -, h⟩ := Except.bind_inv h
  cases owners with
  | cons e rest => cases h; simp [Violation.returnedLocal]
  | nil =>
    obtain ⟨promised, -, h⟩ := Except.bind_inv h
    cases promised with
    | none => cases h; simp
    | some required =>
      obtain ⟨order, -, h⟩ := Except.bind_inv h
      dsimp only at h
      split at h <;> cases h <;> simp [Violation.returnedTooShort]

theorem applyReturn_iff {value : String} {vs : List Violation} :
    (applyReturn c value).run s = .ok vs t ↔
      (c.isRef value = .ok true ∧ t = s ∧
        ((∃ v, c.readViolation s value "return" = some v ∧ vs = [v]) ∨
          (c.readViolation s value "return" = none ∧ returnReference c value s = .ok vs))) ∨
      (c.isRef value = .ok false ∧ ∃ taken, (c.moveOut value).run s = .ok taken t ∧
        vs = taken.toList) := by
  constructor
  · intro h
    unfold applyReturn at h
    obtain ⟨isRef, hr, h⟩ := Access.lift_bind_inv h
    cases isRef with
    | false =>
      simp only [Bool.false_eq_true, ↓reduceIte] at h
      exact Or.inr ⟨hr, run_toList_iff.mp h⟩
    | true =>
      simp only [↓reduceIte, EStateM.run_bind, Site.run_read] at h
      cases hv : c.readViolation s value "return" with
      | some v => rw [hv] at h; cases h; exact Or.inl ⟨hr, rfl, Or.inl ⟨v, rfl, rfl⟩⟩
      | none =>
        simp only [hv] at h
        obtain ⟨hret, rfl⟩ := Access.run_get_lift_iff.mp h
        exact Or.inl ⟨hr, rfl, Or.inr ⟨rfl, hret⟩⟩
  · rintro (⟨hr, rfl, ⟨v, hv, rfl⟩ | ⟨hv, hret⟩⟩ | ⟨hr, taken, hm, rfl⟩)
    · simp [applyReturn, hr, hv]
    · rw [applyReturn, Access.run_bind_of_ok (Access.run_lift_iff.mpr ⟨hr, rfl⟩)]
      rw [if_pos rfl, EStateM.run_bind, Site.run_read, hv]
      exact Access.run_get_lift_iff.mpr ⟨hret, rfl⟩
    · simp [applyReturn, hr, hm]

theorem applyInstruction_iff {r : Regions} {i : Instruction} {e : Event} :
    (k.applyInstruction r c i).run s = .ok e t ↔
      ∃ vs u, (k.applyOp c i.op).run s = .ok vs u ∧
        e = { location := c.location, span := c.span, violations := vs,
              refreshed := refreshed? i.op u } ∧
        t = u.keepLoans fun l => r.keepsLoanAfter l.ref c.location.block c.location.index := by
  constructor
  · intro h
    obtain ⟨vs, u, ho, h⟩ := Access.bind_inv h
    cases h
    exact ⟨vs, u, ho, rfl, rfl⟩
  · rintro ⟨vs, u, ho, rfl, rfl⟩
    simp [applyInstruction, ho]

theorem applyEnding_iff {r : Regions} {ending : Option Ending} {e : Event} :
    (applyEnding r c ending).run s = .ok e t ↔
      ∃ vs u, (applyTerminator c (ending.map Ending.terminator)).run s = .ok vs u ∧
        e = { location := c.location, span := c.span, violations := vs } ∧
        t = u.keepLoans fun l => r.keepsLoanAfter l.ref c.location.block c.location.index := by
  constructor
  · intro h
    obtain ⟨vs, u, ho, h⟩ := Access.bind_inv h
    cases h
    exact ⟨vs, u, ho, rfl, rfl⟩
  · rintro ⟨vs, u, ho, rfl, rfl⟩
    simp [applyEnding, ho]

def site (k : Checker) (f : Function) (r : Regions) (b : Block) (n : Int) (span : Span) : Site :=
  { function := f, types := k.types, regions := r, location := ⟨f.name, b.label, n⟩, span }

section Blocks
variable {f : Function} {r : Regions} {b : Block} {n : Int} {es : List Event}

theorem applyFrom_nil_iff : (k.applyFrom f r b n []).run s = .ok es t ↔
    ∃ e, (applyEnding r (k.site f r b n b.endingSpan) b.ending).run s = .ok e t ∧ es = [e] := by
  constructor
  · intro h
    obtain ⟨e, u, he, h⟩ := Access.bind_inv h
    cases h
    exact ⟨e, he, rfl⟩
  · rintro ⟨e, he, rfl⟩
    exact Access.run_bind_of_ok he

theorem applyFrom_cons_iff {i : Instruction} {rest : List Instruction} :
    (k.applyFrom f r b n (i :: rest)).run s = .ok es t ↔
      ∃ e u es', (k.applyInstruction r (k.site f r b n i.span) i).run s = .ok e u ∧
        (k.applyFrom f r b (n + 1) rest).run u = .ok es' t ∧ es = e :: es' := by
  constructor
  · intro h
    obtain ⟨e, u, he, h⟩ := Access.bind_inv h
    obtain ⟨es', w, hrest, h⟩ := Access.bind_inv h
    cases h
    exact ⟨e, u, es', he, hrest, rfl⟩
  · rintro ⟨e, u, es', he, hrest, rfl⟩
    exact (Access.run_bind_of_ok he).trans (Access.run_bind_of_ok hrest)

theorem transferBlock_iff {label : String} : k.transferBlock f r label s = .ok (t, es) ↔
    ∃ b, f.blocks.get? label = some b ∧ (k.applyFrom f r b 0 b.body).run s = .ok es t := by
  constructor
  · intro h
    obtain ⟨b, hb, h⟩ := Except.bind_inv h
    refine ⟨b, Function.block_iff.mp hb, ?_⟩
    split at h
    · rename_i events u hrun
      cases h
      exact hrun
    · cases h
  · rintro ⟨b, hb, hrun⟩
    refine (Except.bind_of_ok (Function.block_iff.mpr hb)).trans ?_
    rw [hrun]
    rfl

def applyOps (k : Checker) (f : Function) (r : Regions) (b : Block) :
    Int → List Instruction → Access (List Event)
  | _, [] => return []
  | n, i :: rest => do
    let event ← k.applyInstruction r (k.site f r b n i.span) i
    return event :: (← k.applyOps f r b (n + 1) rest)

theorem applyOps_nil_iff : (k.applyOps f r b n []).run s = .ok es t ↔ es = [] ∧ t = s := by
  constructor
  · intro h
    cases h
    exact ⟨rfl, rfl⟩
  · rintro ⟨rfl, rfl⟩
    rfl

theorem applyOps_cons_iff {i : Instruction} {rest : List Instruction} :
    (k.applyOps f r b n (i :: rest)).run s = .ok es t ↔
      ∃ e u es', (k.applyInstruction r (k.site f r b n i.span) i).run s = .ok e u ∧
        (k.applyOps f r b (n + 1) rest).run u = .ok es' t ∧ es = e :: es' := by
  constructor
  · intro h
    obtain ⟨e, u, he, h⟩ := Access.bind_inv h
    obtain ⟨es', w, hrest, h⟩ := Access.bind_inv h
    cases h
    exact ⟨e, u, es', he, hrest, rfl⟩
  · rintro ⟨e, u, es', he, hrest, rfl⟩
    exact (Access.run_bind_of_ok he).trans (Access.run_bind_of_ok hrest)

/-- Behind the first of some operations the index is one more. -/
theorem index_cons (i : Instruction) (before : List Instruction) :
    n + ((i :: before).length : Int) = n + 1 + before.length := by
  rw [List.length_cons]
  omega

/-- A block is run by running a part of its operations first. -/
theorem applyFrom_append_iff {before rest : List Instruction} :
    (k.applyFrom f r b n (before ++ rest)).run s = .ok es t ↔
      ∃ es₁ u es₂, (k.applyOps f r b n before).run s = .ok es₁ u ∧
        (k.applyFrom f r b (n + before.length) rest).run u = .ok es₂ t ∧ es = es₁ ++ es₂ := by
  induction before generalizing n s es with
  | nil =>
    constructor
    · intro h
      exact ⟨[], s, es, applyOps_nil_iff.mpr ⟨rfl, rfl⟩, by simpa using h, rfl⟩
    · rintro ⟨es₁, u, es₂, hops, hrest, rfl⟩
      obtain ⟨rfl, rfl⟩ := applyOps_nil_iff.mp hops
      simpa using hrest
  | cons i before ih =>
    rw [List.cons_append, applyFrom_cons_iff, index_cons]
    constructor
    · rintro ⟨e, u, es', he, hrest, rfl⟩
      obtain ⟨es₁, w, es₂, hops, hlast, rfl⟩ := ih.mp hrest
      exact ⟨e :: es₁, w, es₂, applyOps_cons_iff.mpr ⟨e, u, es₁, he, hops, rfl⟩, hlast, rfl⟩
    · rintro ⟨es₁, w, es₂, hops, hlast, rfl⟩
      obtain ⟨e, u, es', he, hrest, rfl⟩ := applyOps_cons_iff.mp hops
      exact ⟨e, u, es' ++ es₂, he, ih.mpr ⟨es', w, es₂, hrest, hlast, rfl⟩, rfl⟩

/-- A block is run by running its operations and then its terminator. -/
theorem transferBlock_ops_iff {label : String} : k.transferBlock f r label s = .ok (t, es) ↔
    ∃ b es₁ u e, f.blocks.get? label = some b ∧ (k.applyOps f r b 0 b.body).run s = .ok es₁ u ∧
      (applyEnding r (k.site f r b b.body.length b.endingSpan) b.ending).run u = .ok e t ∧
      es = es₁ ++ [e] := by
  rw [transferBlock_iff]
  constructor
  · rintro ⟨b, hb, hrun⟩
    rw [← List.append_nil b.body] at hrun
    obtain ⟨es₁, u, es₂, hops, hrest, rfl⟩ := applyFrom_append_iff.mp hrun
    rw [Int.zero_add] at hrest
    obtain ⟨e, he, rfl⟩ := applyFrom_nil_iff.mp hrest
    exact ⟨b, es₁, u, e, hb, hops, he, rfl⟩
  · rintro ⟨b, es₁, u, e, hb, hops, he, rfl⟩
    refine ⟨b, hb, ?_⟩
    rw [← List.append_nil b.body]
    refine applyFrom_append_iff.mpr ⟨es₁, u, [e], hops, ?_, rfl⟩
    rw [Int.zero_add]
    exact applyFrom_nil_iff.mpr ⟨e, he, rfl⟩

end Blocks

end Checker

end Ownership

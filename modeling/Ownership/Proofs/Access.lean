import Ownership.Proofs.FlowState

/-! # Outcomes of accesses

When an access finds nothing wrong and what it then leaves behind, and what is known of the state
when it finds a violation. Later arguments cite these outcomes and never unfold an access.
-/
namespace Ownership
open Std

namespace Access
variable {α β : Type} {s t u : FlowState}

/-- A run of two accesses is a run of the first and then of the second. -/
theorem bind_inv {x : Access α} {g : α → Access β} {b : β} (h : (x >>= g).run s = .ok b u) :
    ∃ a t, x.run s = .ok a t ∧ (g a).run t = .ok b u := by
  rw [EStateM.run_bind] at h
  cases hx : x.run s with
  | ok a t => rw [hx] at h; exact ⟨a, t, rfl, h⟩
  | error e t => rw [hx] at h; cases h

theorem run_bind_of_ok {ε σ : Type} {x : EStateM ε σ α} {g : α → EStateM ε σ β} {s t : σ} {a : α}
    (h : x.run s = .ok a t) : (x >>= g).run s = (g a).run t := by
  rw [EStateM.run_bind, h]

@[simp] theorem run_lift_ok (a : α) (s : FlowState) :
    (liftM (Except.ok a : Except Fault α) : Access α).run s = .ok a s := rfl

theorem run_lift_iff {x : Except Fault α} {a : α} :
    (liftM x : Access α).run s = .ok a t ↔ x = .ok a ∧ t = s := by
  cases x with
  | ok b =>
    constructor
    · intro h; cases h; exact ⟨rfl, rfl⟩
    · rintro ⟨⟨⟩, rfl⟩; rfl
  | error e => exact ⟨nofun, nofun⟩

theorem run_get_lift_iff {g : FlowState → Except Fault α} {a : α} :
    (do g (← get) : Access α).run s = .ok a t ↔ g s = .ok a ∧ t = s := by
  rw [EStateM.run_bind, EStateM.run_get]
  exact run_lift_iff

@[simp] theorem run_map (g : α → β) (x : Access α) (s : FlowState) :
    (g <$> x).run s = match x.run s with | .ok a t => .ok (g a) t | .error e t => .error e t := by
  simp only [EStateM.run, Functor.map, EStateM.map]
  cases x s <;> rfl

theorem lift_bind_inv {x : Except Fault α} {g : α → Access β} {b : β}
    (h : (liftM x >>= g).run s = .ok b u) : ∃ a, x = .ok a ∧ (g a).run s = .ok b u := by
  cases x with
  | ok a => exact ⟨a, rfl, h⟩
  | error e => cases h

end Access

theorem Except.bind_inv {ε α β : Type} {x : Except ε α} {g : α → Except ε β} {b : β}
    (h : (x >>= g) = .ok b) : ∃ a, x = .ok a ∧ g a = .ok b := by
  cases x with
  | ok a => exact ⟨a, rfl, h⟩
  | error e => cases h

theorem Except.bind_of_ok {α β : Type} {x : Except Fault α} {g : α → Except Fault β} {a : α}
    (h : x = .ok a) : (x >>= g) = g a := by
  rw [h]
  rfl

/-- What holds at the start of a fold and is kept by its steps holds at its end. -/
theorem Except.foldlM_invariant {α β : Type} {P : β → Prop} {g : β → α → Except Fault β}
    {l : List α} {b b' : β} (hstep : ∀ a ∈ l, ∀ u v, P u → g u a = .ok v → P v) (hb : P b)
    (h : l.foldlM g b = .ok b') : P b' := by
  induction l generalizing b with
  | nil =>
    cases h
    exact hb
  | cons a l ih =>
    obtain ⟨ha, hl⟩ := List.forall_mem_cons.mp hstep
    rw [List.foldlM_cons] at h
    obtain ⟨u, hu, h⟩ := Except.bind_inv h
    exact ih hl (ha b u hb hu) h

/-- If each step of a fold adds what its element brings, the end has what the start had or some
element brings. -/
theorem Except.foldlM_collects {α β : Type} {P : β → Prop} {Q : α → Prop}
    {g : β → α → Except Fault β} {l : List α} {b b' : β}
    (hstep : ∀ a u v, g u a = .ok v → (P v ↔ P u ∨ Q a)) (h : l.foldlM g b = .ok b') :
    P b' ↔ P b ∨ ∃ a ∈ l, Q a := by
  induction l generalizing b with
  | nil =>
    cases h
    simp
  | cons a l ih =>
    rw [List.foldlM_cons] at h
    obtain ⟨u, hu, h⟩ := Except.bind_inv h
    rw [ih h, hstep a b u hu, or_assoc]
    simp

theorem Except.exists_of_isOk {ε α : Type} {x : Except ε α} (h : x.isOk = true) :
    ∃ a, x = .ok a := by
  cases x with
  | ok a => exact ⟨a, rfl⟩
  | error e => cases h

theorem Except.eq_error_of_map {ε α β : Type} {x : Except ε α} {g : α → β} {e : ε}
    (h : x.map g = .error e) : x = .error e := by
  cases x with
  | ok a => cases h
  | error e' => exact congrArg Except.error (Except.error.inj h)

namespace OwnershipState

def fault : OwnershipState → DiagnosticKind
  | owned | uninitialized => .useOfUninitialized
  | moved => .useAfterMove
  | dropped => .useAfterDrop

theorem fault_isUseState (s : OwnershipState) : s.fault.isUseState = true := by cases s <;> rfl

end OwnershipState

namespace Violation
variable {name action : String} {state : OwnershipState}

@[simp] theorem ofState_owned (name action : String) : ofState name .owned action = none := rfl

@[simp] theorem ofState_eq_none : ofState name state action = none ↔ state = .owned := by
  cases state <;> simp [ofState]

theorem ofState_inv {v : Violation} (h : ofState name state action = some v) :
    state ≠ .owned ∧ v.kind = state.fault ∧ v.subject = name := by
  cases state <;> cases h <;> exact ⟨nofun, rfl, rfl⟩

end Violation

section Sorting
variable {α : Type} (le : α → α → Bool)

theorem insertBy_perm (a : α) (l : List α) : (insertBy le a l).Perm (a :: l) := by
  induction l with
  | nil => exact .refl _
  | cons d l ih =>
    unfold insertBy
    split
    · exact (ih.cons d).trans (.swap a d l)
    · exact .refl _

theorem foldl_insertBy_perm (l acc : List α) :
    (l.foldl (fun sorted a => insertBy le a sorted) acc).Perm (l ++ acc) := by
  induction l generalizing acc with
  | nil => exact .refl _
  | cons a l ih =>
    exact (ih _).trans (((insertBy_perm le a acc).append_left l).trans List.perm_middle)

theorem sortBy_perm (l : List α) : (sortBy le l).Perm l := by
  simpa [sortBy] using foldl_insertBy_perm le l []

@[simp] theorem mem_sortBy {b : α} {l : List α} : b ∈ sortBy le l ↔ b ∈ l :=
  (sortBy_perm le l).mem_iff

theorem sortBy_eq_nil {l : List α} : sortBy le l = [] ↔ l = [] := by
  simp [List.eq_nil_iff_forall_not_mem]

end Sorting

namespace FlowState
variable {s : FlowState} {r : BorrowRequest} {nextUse : String → Option UseSite}

def Blocks (r : BorrowRequest) (l : Loan) : Prop :=
  l.place = r.place ∧ ¬(r.ref.isSome = true ∧ l.ref = r.ref) ∧
    (r.kind = .exclusive ∨ l.kind = .exclusive)

theorem blockingLoans_eq_nil : s.blockingLoans r.place r.kind r.ref = [] ↔
    ∀ l ∈ s.loans, ¬Blocks r l := by
  have hsome : r.ref.isSome = true ↔ ¬r.ref = none := by simp [Option.isSome_iff_ne_none]
  unfold blockingLoans
  rw [sortBy_eq_nil, Loans.toList_eq_nil]
  simp only [Blocks, hsome]
  simp [Decidable.imp_iff_not_or, or_assoc]

theorem checkBorrow_ok_iff {loan : Loan} : s.checkBorrow r nextUse = .ok loan ↔
    s.stateOf r.place = .owned ∧ (r.kind = .exclusive → r.mutable = true) ∧
    (∀ l ∈ s.loans, ¬Blocks r l) ∧
      loan = { place := r.place, kind := r.kind, ref := r.ref, origin := r.origin,
               temporary := r.temporary } := by
  rw [← blockingLoans_eq_nil]
  unfold checkBorrow
  extract_lets action
  split
  · rename_i v hs
    have hne := (Violation.ofState_inv hs).1
    simp [hne]
  · rename_i hs
    have ho := Violation.ofState_eq_none.mp hs
    split
    · rename_i hm
      simp only [Bool.and_eq_true, beq_iff_eq, Bool.not_eq_eq_eq_not, Bool.not_true] at hm
      simp [hm]
    · rename_i hm
      have hm' : r.kind = .exclusive → r.mutable = true := by simpa using hm
      split
      · rename_i hb
        simp [hb]
      · rename_i hb
        simp only [Except.ok.injEq, ho, hb, true_and]
        exact ⟨fun h => ⟨hm', h.symm⟩, fun h => h.2.symm⟩

/-- A refused request is refused for the state of the place, or for another reason if it is
owned. -/
theorem checkBorrow_error_inv {v : Violation} (h : s.checkBorrow r nextUse = .error v) :
    (s.stateOf r.place ≠ .owned ∧ v.kind = (s.stateOf r.place).fault ∧ v.subject = r.place) ∨
      (s.stateOf r.place = .owned ∧ v.kind.isUseState = false) := by
  unfold checkBorrow at h
  extract_lets action at h
  split at h
  · rename_i hs
    cases h
    exact Or.inl (Violation.ofState_inv hs)
  · rename_i hs
    have ho := Violation.ofState_eq_none.mp hs
    split at h
    · cases h
      exact Or.inr ⟨ho, rfl⟩
    · split at h
      · cases h
        exact Or.inr ⟨ho, rfl⟩
      · cases h

end FlowState

namespace Site
variable {c : Site} {s t : FlowState} {name : String}

theorem readViolation_eq_none {action : String} : c.readViolation s name action = none ↔
    s.stateOf name = .owned ∧ ∀ l ∈ s.loans, l.place = name → l.kind ≠ .exclusive := by
  have hl : ((s.loansOn name).keep fun l => l.kind == .exclusive).toList = [] ↔
      ∀ l ∈ s.loans, l.place = name → l.kind ≠ .exclusive := by
    rw [Loans.toList_eq_nil]
    simp [and_imp]
  unfold readViolation
  rw [← hl]
  split
  · rename_i hs
    simp [(Violation.ofState_inv hs).1]
  · rename_i hs
    rw [Violation.ofState_eq_none] at hs
    split <;> simp_all

/-- A refused read is refused for the state of the binding, or for an exclusive loan. -/
theorem readViolation_inv {action : String} {v : Violation}
    (h : c.readViolation s name action = some v) :
    (s.stateOf name ≠ .owned ∧ v.kind = (s.stateOf name).fault ∧ v.subject = name) ∨
      (s.stateOf name = .owned ∧ v.kind = .conflictingBorrow) := by
  unfold readViolation at h
  split at h
  · rename_i hs
    cases h
    exact Or.inl (Violation.ofState_inv hs)
  · rename_i hs
    split at h
    · cases h
    · cases h
      exact Or.inr ⟨Violation.ofState_eq_none.mp hs, rfl⟩

@[simp] theorem run_read (action : String) :
    (c.read name action).run s = .ok (c.readViolation s name action) s := rfl

structure Writable (c : Site) (s : FlowState) (name : String) : Prop where
  owned : s.stateOf name = .owned
  mutable : ∃ b, c.function.binding name = .ok b ∧ b.mutable = true
  unlent : ∀ l ∈ s.loans, l.place ≠ name

def renew (c : Site) (name : String) (tracks : Bool) (s : FlowState) : FlowState :=
  if tracks then c.mint name s else s

theorem loansOn_toList_eq_nil : (s.loansOn name).toList = [] ↔ ∀ l ∈ s.loans, l.place ≠ name := by
  rw [Loans.toList_eq_nil]
  simp

theorem write_none_iff : (c.write name).run s = .ok none t ↔
    c.Writable s name ∧ ∃ tracks, c.tracksResource name = .ok tracks ∧
    t = c.renew name tracks s := by
  constructor
  · intro h
    unfold write at h
    simp only [EStateM.run_bind, EStateM.run_get] at h
    split at h
    · cases h
    · rename_i hs
      obtain ⟨b, hb, h⟩ := Access.lift_bind_inv h
      split at h
      · cases h
      · rename_i hm
        split at h
        · cases h
        · rename_i hl
          obtain ⟨tracks, ht, h⟩ := Access.lift_bind_inv h
          refine ⟨⟨Violation.ofState_eq_none.mp hs, ⟨b, hb, by simpa using hm⟩,
            loansOn_toList_eq_nil.mp hl⟩, tracks, ht, ?_⟩
          cases tracks <;> cases h <;> rfl
  · rintro ⟨⟨hs, ⟨b, hb, hm⟩, hl⟩, tracks, ht, rfl⟩
    rw [← loansOn_toList_eq_nil] at hl
    cases tracks <;> simp [write, renew, hs, hb, hm, hl, ht]

def IsOverwrite (name : String) (v : Violation) : Prop :=
  v = .assignedTwice name ∨ ∃ related, v = .assignedWhileBorrowed name related

/-- A refused write leaves the state alone. -/
theorem write_some_inv {v : Violation} (h : (c.write name).run s = .ok (some v) t) : t = s ∧
    ((s.stateOf name ≠ .owned ∧ v.kind = (s.stateOf name).fault ∧ v.subject = name) ∨
      (s.stateOf name = .owned ∧ IsOverwrite name v)) := by
  unfold write at h
  simp only [EStateM.run_bind, EStateM.run_get] at h
  split at h
  · rename_i hs
    cases h
    exact ⟨rfl, Or.inl (Violation.ofState_inv hs)⟩
  · rename_i hs
    have ho := Violation.ofState_eq_none.mp hs
    obtain ⟨b, -, h⟩ := Access.lift_bind_inv h
    split at h
    · cases h
      exact ⟨rfl, Or.inr ⟨ho, Or.inl rfl⟩⟩
    · split at h
      · cases h
        exact ⟨rfl, Or.inr ⟨ho, Or.inr ⟨_, rfl⟩⟩⟩
      · obtain ⟨tracks, -, h⟩ := Access.lift_bind_inv h
        cases tracks <;> cases h

/-- An owned binding that is immutable or lent cannot be overwritten. -/
theorem write_refused {b : Binding} (hb : c.function.binding name = .ok b)
    (hs : s.stateOf name = .owned) (hbad : b.mutable = false ∨ ∃ l ∈ s.loans, l.place = name) :
    ∃ v, (c.write name).run s = .ok (some v) s ∧ IsOverwrite name v := by
  cases hm : b.mutable with
  | false => exact ⟨_, by simp [write, hs, hb, hm], Or.inl rfl⟩
  | true =>
    obtain ⟨l, hl, hp⟩ := hbad.resolve_left (by simp [hm])
    cases hlist : (s.loansOn name).toList with
    | nil => exact absurd hp (loansOn_toList_eq_nil.mp hlist l hl)
    | cons e rest =>
      refine ⟨.assignedWhileBorrowed name (e.1.explain e.2 c.nextUse), ?_, Or.inr ⟨_, rfl⟩⟩
      simp [write, hs, hb, hm, hlist]

/-- A binding is refused a write, or may be written. -/
theorem refused_or_writable {b : Binding} (hb : c.function.binding name = .ok b) {s : FlowState}
    (hs : s.stateOf name = .owned) : (b.mutable = false ∨ ∃ l ∈ s.loans, l.place = name) ∨
    c.Writable s name := by
  by_cases hbad : b.mutable = false ∨ ∃ l ∈ s.loans, l.place = name
  · exact Or.inl hbad
  · have hm : b.mutable = true := by
      cases hm : b.mutable with
      | true => rfl
      | false => exact absurd (Or.inl hm) hbad
    exact Or.inr ⟨hs, ⟨b, hb, hm⟩, fun l hl hp => hbad (Or.inr ⟨l, hl, hp⟩)⟩

theorem writeThrough_none_iff : (c.writeThrough name).run s = .ok none t ↔
    (c.isRef name = .ok true ∧ c.isExclusiveRef name = .ok true ∧
        c.readViolation s name "write through" = none ∧ t = s) ∨
      (c.isRef name = .ok false ∧ (c.write name).run s = .ok none t) := by
  constructor
  · intro h
    unfold writeThrough at h
    obtain ⟨isRef, hr, h⟩ := Access.lift_bind_inv h
    cases isRef with
    | false => exact Or.inr ⟨hr, h⟩
    | true =>
      simp only [↓reduceIte, EStateM.run_bind, EStateM.run_get] at h
      split at h
      · cases h
      · rename_i hv
        obtain ⟨exclusive, he, h⟩ := Access.lift_bind_inv h
        cases exclusive with
        | false => cases h
        | true => cases h; exact Or.inl ⟨hr, he, hv, rfl⟩
  · rintro (⟨hr, he, hv, rfl⟩ | ⟨hr, h⟩)
    · simp [writeThrough, hr, he, hv]
    · simpa [writeThrough, hr] using h

theorem writeThrough_inv {v : Option Violation} (h : (c.writeThrough name).run s = .ok v t) :
    (t = s ∧ (v = c.readViolation s name "write through" ∨
        (s.stateOf name = .owned ∧ v = some (.writtenThroughShared name)))) ∨
      (c.write name).run s = .ok v t := by
  unfold writeThrough at h
  obtain ⟨isRef, -, h⟩ := Access.lift_bind_inv h
  cases isRef with
  | false => exact Or.inr h
  | true =>
    left
    simp only [↓reduceIte, EStateM.run_bind, EStateM.run_get] at h
    split at h
    · rename_i hv
      cases h
      exact ⟨rfl, Or.inl hv.symm⟩
    · rename_i hv
      obtain ⟨exclusive, he, h⟩ := Access.lift_bind_inv h
      cases exclusive with
      | false => cases h; exact ⟨rfl, Or.inr ⟨(readViolation_eq_none.mp hv).1, rfl⟩⟩
      | true => cases h; exact ⟨rfl, Or.inl hv.symm⟩

theorem moveOut_none_iff : (c.moveOut name).run s = .ok none t ↔
    (c.isDuplicable name = .ok true ∧ c.readViolation s name "use" = none ∧ t = s) ∨
      (c.isDuplicable name = .ok false ∧ s.stateOf name = .owned ∧ (∀ l ∈ s.loans, l.place ≠ name) ∧
        t = s.setState name .moved) := by
  constructor
  · intro h
    unfold moveOut at h
    obtain ⟨dup, hd, h⟩ := Access.lift_bind_inv h
    cases dup with
    | true =>
      simp only [↓reduceIte, run_read, EStateM.Result.ok.injEq] at h
      exact Or.inl ⟨hd, h.1, h.2.symm⟩
    | false =>
      simp only [Bool.false_eq_true, ↓reduceIte, EStateM.run_bind, EStateM.run_get] at h
      split at h
      · cases h
      · rename_i hs
        simp only [EStateM.run_bind, EStateM.run_set] at h
        split at h
        · rename_i hl
          cases h
          exact Or.inr ⟨hd, Violation.ofState_eq_none.mp hs, loansOn_toList_eq_nil.mp hl, rfl⟩
        · cases h
  · rintro (⟨hd, hv, rfl⟩ | ⟨hd, hs, hl, rfl⟩)
    · simp [moveOut, hd, hv]
    · rw [← loansOn_toList_eq_nil] at hl
      simp [moveOut, hd, hs, hl]

/-- A move takes the value of an owned binding even if a loan forbids it. -/
theorem moveOut_inv {v : Option Violation} (h : (c.moveOut name).run s = .ok v t) :
    (c.isDuplicable name = .ok true ∧ v = c.readViolation s name "use" ∧ t = s) ∨
      (c.isDuplicable name = .ok false ∧ s.stateOf name ≠ .owned ∧ t = s ∧
        ∃ w, v = some w ∧ w.kind = (s.stateOf name).fault ∧ w.subject = name) ∨
      (c.isDuplicable name = .ok false ∧ s.stateOf name = .owned ∧ t = s.setState name .moved ∧
        ∀ w ∈ v, w.kind = .moveWhileBorrowed) := by
  unfold moveOut at h
  obtain ⟨dup, hd, h⟩ := Access.lift_bind_inv h
  cases dup with
  | true =>
    simp only [↓reduceIte, run_read, EStateM.Result.ok.injEq] at h
    exact Or.inl ⟨hd, h.1.symm, h.2.symm⟩
  | false =>
    right
    simp only [Bool.false_eq_true, ↓reduceIte, EStateM.run_bind, EStateM.run_get] at h
    split at h
    · rename_i w hs
      cases h
      obtain ⟨hne, hk, hsub⟩ := Violation.ofState_inv hs
      exact Or.inl ⟨hd, hne, rfl, w, rfl, hk, hsub⟩
    · rename_i hs
      simp only [EStateM.run_bind, EStateM.run_set] at h
      right
      split at h
      · cases h
        exact ⟨hd, Violation.ofState_eq_none.mp hs, rfl, by simp⟩
      · cases h
        refine ⟨hd, Violation.ofState_eq_none.mp hs, rfl, ?_⟩
        rintro w ⟨⟩
        rfl

def request (c : Site) (name : String) (kind : LoanKind) (ref : String) (b : Binding) :
    BorrowRequest :=
  { place := name, kind, ref := some ref, origin := c.location, mutable := b.mutable,
    span := c.span }

/-- The state after a granted borrow: the reference holds the new loan and, through a reference, the
loans of that one. -/
def borrowed (c : Site) (name ref : String) (through : Bool) (loan : Loan) (s : FlowState) :
    FlowState :=
  (((s.defineRef ref).addLoan loan c.span).addLoans
    ((if through then s.loansHeldBy name else ∅).retarget (some ref))).setProvenance ref
      (if through then s.provenanceOf name else ∅)

theorem borrow_iff {kind : LoanKind} {ref : String} {v : Option Violation} :
    (c.borrow name kind ref).run s = .ok v t ↔
      ∃ b through, c.function.binding name = .ok b ∧ c.isRef name = .ok through ∧
        ((∃ w, s.checkBorrow (c.request name kind ref b) c.nextUse = .error w ∧ v = some w ∧
          t = s.defineRef ref) ∨
          (∃ loan, s.checkBorrow (c.request name kind ref b) c.nextUse = .ok loan ∧ v = none ∧
            t = c.borrowed name ref through loan s)) := by
  constructor
  · intro h
    unfold borrow at h
    simp only [EStateM.run_bind, EStateM.run_get] at h
    obtain ⟨b, hb, h⟩ := Access.lift_bind_inv h
    obtain ⟨through, hr, h⟩ := Access.lift_bind_inv h
    refine ⟨b, through, hb, hr, ?_⟩
    simp only [EStateM.run_modify] at h
    split at h
    · rename_i w hw
      cases h
      exact Or.inl ⟨w, hw, rfl, rfl⟩
    · rename_i loan hl
      cases h
      exact Or.inr ⟨loan, hl, rfl, rfl⟩
  · rintro ⟨b, through, hb, hr, ⟨w, hw, rfl, rfl⟩ | ⟨loan, hl, rfl, rfl⟩⟩
    · simp only [request] at hw
      simp [borrow, hb, hr, hw]
    · simp only [request] at hl
      simp [borrow, hb, hr, hl, borrowed]

def callRequest (c : Site) (name : String) (kind : LoanKind) (mutable : Bool) : BorrowRequest :=
  { place := name, kind, ref := none, origin := c.location, mutable, temporary := true,
    span := c.span }

theorem lend_iff {kind : LoanKind} {mutable : Bool} {result : Except Violation Loan} :
    (c.lend name kind mutable).run s = .ok result t ↔
      result = s.checkBorrow (c.callRequest name kind mutable) c.nextUse ∧
        t = match result with | .ok loan => s.addLoan loan c.span | .error _ => s := by
  rw [callRequest]
  simp only [lend, EStateM.run_bind, EStateM.run_get]
  split
  · rename_i w hw
    rw [hw]
    constructor
    · intro h; cases h; exact ⟨rfl, rfl⟩
    · rintro ⟨rfl, rfl⟩; rfl
  · rename_i loan hl
    rw [hl]
    constructor
    · intro h; cases h; exact ⟨rfl, rfl⟩
    · rintro ⟨rfl, rfl⟩; rfl

def given (c : Site) (name : String) (isRef tracks : Bool) (s : FlowState) : FlowState :=
  if isRef then (s.defineRef name).setProvenance name ∅
  else if s.stateOf name = .owned then (c.renew name tracks s).setState name .owned
  else c.renew name tracks (s.setState name .owned)

theorem stateOf_renew (tracks : Bool) (s : FlowState) (x : String) :
    (c.renew name tracks s).stateOf x = s.stateOf x := by
  cases tracks <;> rfl

theorem stateOf_given (isRef tracks : Bool) (s : FlowState) (x : String) :
    (c.given name isRef tracks s).stateOf x = if name = x then .owned else s.stateOf x := by
  rw [given]
  cases isRef with
  | true => exact FlowState.stateOf_setState
  | false =>
    simp only [Bool.false_eq_true, ↓reduceIte]
    split
    · rw [FlowState.stateOf_setState, stateOf_renew]
    · rw [stateOf_renew, FlowState.stateOf_setState]

theorem tracksResource_of_isRef (h : c.isRef name = .ok true) :
    c.tracksResource name = .ok false := by
  rw [tracksResource, h]
  rfl

/-- A binding gets a value unless it is dropped, or has one that may not be overwritten. -/
theorem store_none_iff : (c.store name).run s = .ok none t ↔
    s.stateOf name ≠ .dropped ∧ (s.stateOf name = .owned → c.Writable s name) ∧
      ∃ isRef tracks, c.isRef name = .ok isRef ∧ c.tracksResource name = .ok tracks ∧
        t = c.given name isRef tracks s := by
  constructor
  · intro h
    unfold store at h
    simp only [EStateM.run_bind, EStateM.run_get] at h
    split at h
    · rename_i hd
      rw [hd] at h
      cases h
    rename_i hd
    split at h
    · rename_i ho
      obtain ⟨refused, u, hw, h⟩ := Access.bind_inv h
      cases refused with
      | some v => cases h
      | none =>
        obtain ⟨hwritable, tracks, ht, rfl⟩ := write_none_iff.mp hw
        obtain ⟨isRef, hr, h⟩ := Access.lift_bind_inv h
        refine ⟨hd, fun _ => hwritable, isRef, tracks, hr, ht, ?_⟩
        cases isRef with
        | true =>
          rw [tracksResource_of_isRef hr] at ht
          cases ht
          cases h
          rfl
        | false =>
          simp only [Bool.false_eq_true, ↓reduceIte, ho, ne_eq, not_true_eq_false] at h
          cases h
          simp [given, ho]
    · rename_i ho
      obtain ⟨isRef, hr, h⟩ := Access.lift_bind_inv h
      refine ⟨hd, fun h => absurd h ho, isRef, ?_⟩
      cases isRef with
      | true =>
        cases h
        exact ⟨false, hr, tracksResource_of_isRef hr, rfl⟩
      | false =>
        simp only [Bool.false_eq_true, ↓reduceIte, EStateM.run_bind, EStateM.run_modify] at h
        obtain ⟨tracks, ht, h⟩ := Access.lift_bind_inv h
        refine ⟨tracks, hr, ht, ?_⟩
        cases tracks <;> cases h <;> simp [given, renew, ho]
  · rintro ⟨hd, hw, isRef, tracks, hr, ht, rfl⟩
    unfold store
    simp only [EStateM.run_bind, EStateM.run_get, hd, ↓reduceIte]
    by_cases ho : s.stateOf name = .owned
    · have hwrite := write_none_iff.mpr ⟨hw ho, tracks, ht, rfl⟩
      cases isRef with
      | true =>
        rw [tracksResource_of_isRef hr] at ht
        cases ht
        simp [ho, hwrite, hr, given, renew]
      | false => simp [ho, hwrite, hr, given]
    · cases isRef with
      | true => simp [ho, hr, given]
      | false => cases tracks <;> simp [ho, hr, ht, given, renew]

/-- A refused value leaves the state alone. -/
theorem store_some_inv {v : Violation} (h : (c.store name).run s = .ok (some v) t) : t = s ∧
    ((s.stateOf name = .dropped ∧ v.kind = .useAfterDrop ∧ v.subject = name) ∨
      (s.stateOf name = .owned ∧ IsOverwrite name v)) := by
  unfold store at h
  simp only [EStateM.run_bind, EStateM.run_get] at h
  split at h
  · rename_i hd
    rw [hd] at h
    cases h
    exact ⟨rfl, Or.inl ⟨hd, rfl, rfl⟩⟩
  split at h
  · rename_i ho
    obtain ⟨refused, u, hw, h⟩ := Access.bind_inv h
    cases refused with
    | some w =>
      cases h
      obtain ⟨rfl, hbad | hbad⟩ := write_some_inv hw
      · exact absurd ho hbad.1
      · exact ⟨rfl, Or.inr hbad⟩
    | none =>
      obtain ⟨isRef, -, h⟩ := Access.lift_bind_inv h
      cases isRef with
      | true => cases h
      | false =>
        simp only [Bool.false_eq_true, ↓reduceIte, ho, ne_eq, not_true_eq_false] at h
        cases h
  · rename_i ho
    obtain ⟨isRef, -, h⟩ := Access.lift_bind_inv h
    cases isRef with
    | true => cases h
    | false =>
      simp only [Bool.false_eq_true, ↓reduceIte] at h
      obtain ⟨tracks, -, h⟩ := Access.lift_bind_inv h
      cases tracks <;> cases h

/-- A value that may not be overwritten is not. -/
theorem store_refused {b : Binding} (hb : c.function.binding name = .ok b)
    (hs : s.stateOf name = .owned) (hbad : b.mutable = false ∨ ∃ l ∈ s.loans, l.place = name) :
    ∃ v, (c.store name).run s = .ok (some v) s ∧ IsOverwrite name v := by
  obtain ⟨v, hw, hv⟩ := write_refused hb hs hbad
  exact ⟨v, by simp [store, hs, hw], hv⟩

def carryLoans (dest source : String) (moved toRef : Bool) (s : FlowState) : FlowState :=
  let kept := if moved then s.killLoansHeldBy [source] else s
  if toRef then
    (kept.addLoans ((s.loansHeldBy source).retarget (some dest))).setProvenance dest
      (s.provenanceOf source)
  else kept

def carryResources (dest source : String) (moved : Bool) (s : FlowState) : FlowState :=
  let kept := if moved then s.forgetResources source else s
  match s.resources[source]? with
  | none => kept
  | some held => kept.setResources dest held

theorem transfer_iff {dest source : String} {moved : Bool} :
    (c.transfer dest source moved).run s = .ok () t ↔
      (∃ toRef, c.isRef source = .ok true ∧ c.isRef dest = .ok toRef ∧
        t = carryLoans dest source moved toRef s) ∨
        (∃ tracks, c.isRef source = .ok false ∧ c.tracksResource source = .ok tracks ∧
          (tracks = false ∧ t = s ∨
        tracks = true ∧ ∃ takes, c.tracksResource dest = .ok takes ∧
          t = if takes then carryResources dest source moved s else s)) := by
  constructor
  · intro h
    unfold transfer at h
    obtain ⟨isRef, hr, h⟩ := Access.lift_bind_inv h
    cases isRef with
    | true =>
      left
      simp only [↓reduceIte, EStateM.run_bind, EStateM.run_get] at h
      cases moved with
      | true =>
        obtain ⟨toRef, hd, h⟩ := Access.lift_bind_inv h
        exact ⟨toRef, hr, hd, by cases toRef <;> cases h <;> rfl⟩
      | false =>
        obtain ⟨toRef, hd, h⟩ := Access.lift_bind_inv h
        exact ⟨toRef, hr, hd, by cases toRef <;> cases h <;> rfl⟩
    | false =>
      right
      simp only [Bool.false_eq_true, ↓reduceIte] at h
      obtain ⟨tracks, ht, h⟩ := Access.lift_bind_inv h
      refine ⟨tracks, hr, ht, ?_⟩
      cases tracks with
      | false => cases h; exact Or.inl ⟨rfl, rfl⟩
      | true =>
        simp only [↓reduceIte] at h
        obtain ⟨takes, hd, h⟩ := Access.lift_bind_inv h
        refine Or.inr ⟨rfl, takes, hd, ?_⟩
        cases takes with
        | false => cases h; rfl
        | true =>
          simp only [↓reduceIte, EStateM.run_bind, EStateM.run_get] at h
          simp only [↓reduceIte, carryResources]
          cases moved <;> cases hheld : s.resources[source]? <;> rw [hheld] at h <;> cases h <;> rfl
  · rintro (⟨toRef, hr, hd, rfl⟩ | ⟨tracks, hr, ht, ⟨rfl, rfl⟩ | ⟨rfl, takes, hd, rfl⟩⟩)
    · cases moved <;> cases toRef <;> simp [transfer, hr, hd, carryLoans] <;> rfl
    · simp [transfer, hr, ht]
    · cases takes with
      | false => simp [transfer, hr, ht, hd]
      | true =>
        cases moved <;> cases hheld : s.resources[source]? <;>
          simp [transfer, hr, ht, hd, carryResources, hheld]

def CarriesIf (c : Site) (go : Prop) (dest source : String) (moved : Bool)
    (s t : FlowState) : Prop :=
  (go ∧ (c.transfer dest source moved).run s = .ok () t) ∨ (¬go ∧ t = s)

theorem assign_none_iff {dest : String} {vs : List Violation} :
    (c.assign dest none).run s = .ok vs t ↔
    ∃ refused, (c.store dest).run s = .ok refused t ∧ vs = refused.toList := by
  constructor
  · intro h
    obtain ⟨refused, u, hr, h⟩ := Access.bind_inv h
    cases h
    exact ⟨refused, hr, rfl⟩
  · rintro ⟨refused, hr, rfl⟩
    simp [assign, hr]

theorem assign_some_iff {dest source : String} {vs : List Violation} :
    (c.assign dest (some source)).run s = .ok vs t ↔
      ∃ dup taken u refused w, c.isDuplicable source = .ok dup ∧
        (c.moveOut source).run s = .ok taken u ∧ (c.store dest).run u = .ok refused w ∧
        vs = taken.toList ++ refused.toList ∧
          c.CarriesIf (refused = none ∧ s.stateOf source = .owned) dest source (!dup) w t := by
  constructor
  · intro h
    unfold assign at h
    obtain ⟨dup, hd, h⟩ := Access.lift_bind_inv h
    simp only [EStateM.run_bind, EStateM.run_get] at h
    obtain ⟨taken, u, hm, h⟩ := Access.bind_inv h
    obtain ⟨refused, w, hr, h⟩ := Access.bind_inv h
    refine ⟨dup, taken, u, refused, w, hd, hm, hr, ?_⟩
    cases refused with
    | some v => cases h; exact ⟨rfl, Or.inr ⟨by simp, rfl⟩⟩
    | none =>
      simp only at h
      split at h
      · rename_i ho
        obtain ⟨_, x, hc, h⟩ := Access.bind_inv h
        cases h
        exact ⟨by simp, Or.inl ⟨⟨rfl, ho⟩, hc⟩⟩
      · rename_i ho
        cases h
        exact ⟨by simp, Or.inr ⟨fun h => ho h.2, rfl⟩⟩
  · rintro ⟨dup, taken, u, refused, w, hd, hm, hr, rfl, hc⟩
    cases refused with
    | some v =>
      obtain ⟨⟨h, -⟩, -⟩ | ⟨-, rfl⟩ := hc
      · cases h
      · simp [assign, hd, hm, hr]
    | none =>
      obtain ⟨⟨-, ho⟩, hc⟩ | ⟨ho, rfl⟩ := hc
      · simp [assign, hd, hm, hr, ho, hc]
      · have ho : s.stateOf source ≠ .owned := fun h => ho ⟨rfl, h⟩
        simp [assign, hd, hm, hr, ho]

def CopiesIf (c : Site) (go : Prop) (dest source : String) (s t : FlowState) : Prop :=
  (go ∧ ∃ u tracks, (c.transfer dest source false).run s = .ok () u ∧
    c.tracksResource dest = .ok tracks ∧ t = c.renew dest tracks u) ∨ (¬go ∧ t = s)

def copyTyped (c : Site) (dest source : String) (invalid : List Violation) :
    Access (List Violation) := do
  let unreadable ← c.read source "copy"
  match ← c.store dest with
  | some v => return invalid ++ unreadable.toList ++ [v]
  | none =>
    if (← get).isOwned source then
      c.transfer dest source false
      if ← c.tracksResource dest then
        modify (c.mint dest)
    return invalid ++ unreadable.toList

theorem copyTyped_iff {dest source : String} {invalid vs : List Violation} :
    (c.copyTyped dest source invalid).run s = .ok vs t ↔
      ∃ refused w, (c.store dest).run s = .ok refused w ∧
        vs = invalid ++ (c.readViolation s source "copy").toList ++ refused.toList ∧
        c.CopiesIf (refused = none ∧ w.stateOf source = .owned) dest source w t := by
  constructor
  · intro h
    unfold copyTyped at h
    rw [EStateM.run_bind, run_read] at h
    obtain ⟨refused, w, hr, h⟩ := Access.bind_inv h
    refine ⟨refused, w, hr, ?_⟩
    cases refused with
    | some v => cases h; exact ⟨rfl, Or.inr ⟨by simp, rfl⟩⟩
    | none =>
      simp only [EStateM.run_bind, EStateM.run_get, FlowState.isOwned, beq_iff_eq] at h
      split at h
      · rename_i ho
        obtain ⟨_, x, hc, h⟩ := Access.bind_inv h
        obtain ⟨tracks, ht, h⟩ := Access.lift_bind_inv h
        cases tracks with
        | true => cases h; exact ⟨by simp, Or.inl ⟨⟨rfl, ho⟩, x, true, hc, ht, rfl⟩⟩
        | false => cases h; exact ⟨by simp, Or.inl ⟨⟨rfl, ho⟩, _, false, hc, ht, rfl⟩⟩
      · rename_i ho
        cases h
        exact ⟨by simp, Or.inr ⟨fun h => ho h.2, rfl⟩⟩
  · rintro ⟨refused, w, hr, rfl, hc⟩
    cases refused with
    | some v =>
      obtain ⟨⟨h, -⟩, -⟩ | ⟨-, rfl⟩ := hc
      · cases h
      · simp [copyTyped, hr]
    | none =>
      obtain ⟨⟨-, ho⟩, x, tracks, hc, ht, rfl⟩ | ⟨ho, rfl⟩ := hc
      · cases tracks <;> simp [copyTyped, hr, FlowState.isOwned, ho, hc, ht, renew]
      · have ho : t.stateOf source ≠ .owned := fun h => ho ⟨rfl, h⟩
        simp [copyTyped, hr, FlowState.isOwned, ho]

def MiscopiedAs (c : Site) (source : String) (invalid : List Violation) : Prop :=
  (c.isDuplicable source = .ok true ∧ invalid = []) ∨
    (c.isDuplicable source = .ok false ∧ ∃ b type, c.function.binding source = .ok b ∧
      c.types.display b.type = .ok type ∧ invalid = [.copiedOwning source type])

theorem MiscopiedAs.eq {source : String} {invalid invalid' : List Violation}
    (h : c.MiscopiedAs source invalid) (h' : c.MiscopiedAs source invalid') :
    invalid = invalid' := by
  rcases h with ⟨hdup, rfl⟩ | ⟨hdup, b, type, hb, htype, rfl⟩
  · rcases h' with ⟨-, rfl⟩ | ⟨hdup', -⟩
    · rfl
    · cases hdup.symm.trans hdup'
  · rcases h' with ⟨hdup', -⟩ | ⟨-, b', type', hb', htype', rfl⟩
    · cases hdup.symm.trans hdup'
    · cases hb.symm.trans hb'
      cases htype.symm.trans htype'
      rfl

theorem copy_iff {dest source : String} {vs : List Violation} :
    (c.copy dest source).run s = .ok vs t ↔
    ∃ invalid, c.MiscopiedAs source invalid ∧
      (c.copyTyped dest source invalid).run s = .ok vs t := by
  constructor
  · intro h
    unfold copy at h
    obtain ⟨dup, hd, h⟩ := Access.lift_bind_inv h
    cases dup with
    | true => exact ⟨[], Or.inl ⟨hd, rfl⟩, h⟩
    | false =>
      simp only [Bool.false_eq_true, ↓reduceIte] at h
      obtain ⟨b, hb, h⟩ := Access.lift_bind_inv h
      obtain ⟨type, htype, h⟩ := Access.lift_bind_inv h
      exact ⟨_, Or.inr ⟨hd, b, type, hb, htype, rfl⟩, h⟩
  · rintro ⟨invalid, ⟨hd, rfl⟩ | ⟨hd, b, type, hb, htype, rfl⟩, h⟩
    · rw [copy, Access.run_bind_of_ok (by rw [hd]; rfl)]
      exact h
    · rw [copy, Access.run_bind_of_ok (by rw [hd]; rfl)]
      simp only [Bool.false_eq_true, ↓reduceIte]
      rw [Access.run_bind_of_ok (by rw [hb]; rfl), Access.run_bind_of_ok (by rw [htype]; rfl)]
      exact h

def scopeEnded (c : Site) (scope : String) (s : FlowState) : FlowState :=
  (c.bindingsOf scope).foldl .drop (s.keepLoans fun l =>
    !(c.bindingsOf scope).contains l.place && l.ref.all fun r => !(c.bindingsOf scope).contains r)

theorem dropScope_iff {scope : String} {vs : List Violation} :
    (c.dropScope scope).run s = .ok vs t ↔
    vs = (sortBy (fun a b => a.1.notAfter b.1) s.loans.toList).filterMap
        (fun e => c.dangling? (c.bindingsOf scope) e.1 e.2) ∧ t = c.scopeEnded scope s := by
  constructor
  · intro h
    cases h
    exact ⟨rfl, rfl⟩
  · rintro ⟨rfl, rfl⟩
    rfl

def Dangles (c : Site) (gone : List String) (l : Loan) : Prop :=
  l.place ∈ gone ∧ ∃ ref, l.ref = some ref ∧ ref ∉ gone ∧ c.isLiveAfter ref = true

theorem dangling?_eq_none {gone : List String} {l : Loan} {span : Span} :
    c.dangling? gone l span = none ↔ ¬c.Dangles gone l := by
  unfold dangling? Dangles
  cases l.ref with
  | none => simp
  | some ref => simp

theorem dangling?_kind {gone : List String} {l : Loan} {span : Span} {v : Violation}
    (h : c.dangling? gone l span = some v) : v.kind = .danglingReference := by
  unfold dangling? at h
  split at h
  · cases h
  · split at h
    · cases h; rfl
    · cases h

theorem dropScope_nil_iff {scope : String} : (c.dropScope scope).run s = .ok [] t ↔
    (∀ l ∈ s.loans, ¬c.Dangles (c.bindingsOf scope) l) ∧ t = c.scopeEnded scope s := by
  rw [dropScope_iff, eq_comm (a := []), List.filterMap_eq_nil_iff]
  apply and_congr_left'
  constructor
  · intro h l hl
    obtain ⟨e, he, rfl⟩ := Loans.exists_mem_toList.mpr ⟨l, hl, rfl⟩
    exact dangling?_eq_none.mp (h e ((mem_sortBy _).mpr he))
  · intro h e he
    exact dangling?_eq_none.mpr (h e.1 (Loans.mem_of_mem_toList ((mem_sortBy _).mp he)))

end Site

end Ownership

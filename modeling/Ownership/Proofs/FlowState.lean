import Ownership.Access

/-! # Views of a flow state

What each elementary change does to the four tables of a flow state. Loans are seen through
membership alone, so that where a borrow is written never enters an argument.
-/
namespace Ownership
open Std

namespace Loans
variable {loans : Loans} {l m : Loan}

@[simp] theorem mem_keep {p : Loan → Bool} : l ∈ loans.keep p ↔ l ∈ loans ∧ p l = true := by
  simp [keep, ExtTreeMap.mem_filter]

@[simp] theorem mem_join {a b : Loans} : l ∈ a.join b ↔ l ∈ a ∨ l ∈ b := by
  simp [join, or_comm]

@[simp] theorem mem_add {span : Span} : l ∈ loans.add m span ↔ m = l ∨ l ∈ loans := by
  simp [add]

theorem mem_foldl_add (entries : List (Loan × Span)) (ref : Option String) (acc : Loans) :
    l ∈ entries.foldl (fun acc e => acc.add (e.1.retarget ref) e.2) acc ↔
      (∃ e ∈ entries, e.1.retarget ref = l) ∨ l ∈ acc := by
  induction entries generalizing acc with
  | nil => simp
  | cons e rest ih =>
    rw [List.foldl_cons, ih, mem_add]
    simp [or_assoc, or_left_comm]

theorem exists_mem_toList {P : Loan → Prop} : (∃ e ∈ loans.toList, P e.1) ↔ ∃ m ∈ loans, P m := by
  constructor
  · rintro ⟨e, he, hp⟩
    have hm : e.1 ∈ loans.keys := by
      rw [← ExtTreeMap.map_fst_toList_eq_keys]
      exact List.mem_map_of_mem he
    exact ⟨e.1, ExtTreeMap.mem_keys.mp hm, hp⟩
  · rintro ⟨m, hm, hp⟩
    rw [← ExtTreeMap.mem_keys, ← ExtTreeMap.map_fst_toList_eq_keys] at hm
    obtain ⟨e, he, rfl⟩ := List.mem_map.mp hm
    exact ⟨e, he, hp⟩

@[simp] theorem mem_retarget {ref : Option String} :
    l ∈ loans.retarget ref ↔ ∃ m ∈ loans, m.retarget ref = l := by
  rw [retarget, mem_foldl_add, exists_mem_toList (P := fun m => m.retarget ref = l)]
  simp

theorem mem_of_mem_toList {e : Loan × Span} (he : e ∈ loans.toList) : e.1 ∈ loans :=
  let ⟨_, hm, h⟩ := exists_mem_toList.mp ⟨e, he, rfl⟩
  h ▸ hm

theorem toList_eq_nil : loans.toList = [] ↔ ∀ l, l ∉ loans := by
  rw [ExtTreeMap.toList_eq_nil_iff, ExtTreeMap.eq_empty_iff_forall_not_mem]

theorem keys_eq_of_mem_iff {a b : Loans} (h : ∀ l, l ∈ a ↔ l ∈ b) : a.keys = b.keys := by
  have hunit : a.map (fun _ _ => ()) = b.map fun _ _ => () := by
    apply ExtTreeMap.ext_mem_unit
    simpa using h
  rw [← ExtTreeMap.keys_map (f := fun _ _ => ()), hunit, ExtTreeMap.keys_map]

end Loans

namespace Loan

@[simp] theorem retarget_place (l : Loan) (ref : Option String) :
    (l.retarget ref).place = l.place := rfl
@[simp] theorem retarget_kind (l : Loan) (ref : Option String) :
    (l.retarget ref).kind = l.kind := rfl
@[simp] theorem retarget_ref (l : Loan) (ref : Option String) : (l.retarget ref).ref = ref := rfl
@[simp] theorem retarget_origin (l : Loan) (ref : Option String) :
    (l.retarget ref).origin = l.origin := rfl
@[simp] theorem retarget_temporary (l : Loan) (ref : Option String) :
    (l.retarget ref).temporary = false := rfl

end Loan

namespace OwnershipState

theorem rank_injective {a b : OwnershipState} (h : a.rank = b.rank) : a = b := by
  cases a <;> cases b <;> simp [rank] at h ⊢

theorem rank_meet (a b : OwnershipState) : (a.meet b).rank = min a.rank b.rank := by
  unfold meet
  split <;> omega

theorem eq_owned_of_rank_le {a : OwnershipState} (h : owned.rank ≤ a.rank) : a = owned := by
  cases a <;> simp [rank] at h ⊢

theorem meet_eq_or (a b : OwnershipState) : a.meet b = a ∨ a.meet b = b := by
  unfold meet
  split
  · exact Or.inl rfl
  · exact Or.inr rfl

end OwnershipState

namespace FlowState
variable (s : FlowState) (name : String)

@[simp] theorem setState_loans (state : OwnershipState) :
    (s.setState name state).loans = s.loans := rfl
@[simp] theorem setState_provenance (state : OwnershipState) :
    (s.setState name state).provenance = s.provenance := rfl
@[simp] theorem setState_resources (state : OwnershipState) :
    (s.setState name state).resources = s.resources := rfl

@[simp] theorem keepLoans_states (p : Loan → Bool) : (s.keepLoans p).states = s.states := rfl
@[simp] theorem keepLoans_provenance (p : Loan → Bool) :
    (s.keepLoans p).provenance = s.provenance := rfl
@[simp] theorem keepLoans_resources (p : Loan → Bool) :
    (s.keepLoans p).resources = s.resources := rfl

@[simp] theorem addLoan_states (loan : Loan) (span : Span) :
    (s.addLoan loan span).states = s.states := rfl
@[simp] theorem addLoan_provenance (loan : Loan) (span : Span) :
    (s.addLoan loan span).provenance = s.provenance := rfl
@[simp] theorem addLoan_resources (loan : Loan) (span : Span) :
    (s.addLoan loan span).resources = s.resources := rfl

@[simp] theorem addLoans_states (loans : Loans) : (s.addLoans loans).states = s.states := rfl
@[simp] theorem addLoans_provenance (loans : Loans) :
    (s.addLoans loans).provenance = s.provenance := rfl
@[simp] theorem addLoans_resources (loans : Loans) :
    (s.addLoans loans).resources = s.resources := rfl

@[simp] theorem setProvenance_states (lts : Names) :
    (s.setProvenance name lts).states = s.states := rfl
@[simp] theorem setProvenance_loans (lts : Names) :
    (s.setProvenance name lts).loans = s.loans := rfl
@[simp] theorem setProvenance_resources (lts : Names) :
    (s.setProvenance name lts).resources = s.resources := rfl

@[simp] theorem forgetProvenance_states : (s.forgetProvenance name).states = s.states := rfl
@[simp] theorem forgetProvenance_loans : (s.forgetProvenance name).loans = s.loans := rfl
@[simp] theorem forgetProvenance_resources :
    (s.forgetProvenance name).resources = s.resources := rfl

@[simp] theorem setResources_states (held : Resources) :
    (s.setResources name held).states = s.states := rfl
@[simp] theorem setResources_loans (held : Resources) :
    (s.setResources name held).loans = s.loans := rfl
@[simp] theorem setResources_provenance (held : Resources) :
    (s.setResources name held).provenance = s.provenance := rfl

@[simp] theorem forgetResources_states : (s.forgetResources name).states = s.states := rfl
@[simp] theorem forgetResources_loans : (s.forgetResources name).loans = s.loans := rfl
@[simp] theorem forgetResources_provenance :
    (s.forgetResources name).provenance = s.provenance := rfl

@[simp] theorem mint_states (at_ : Location) (limit : Int) :
    (s.mint name at_ limit).states = s.states := rfl
@[simp] theorem mint_loans (at_ : Location) (limit : Int) :
    (s.mint name at_ limit).loans = s.loans := rfl
@[simp] theorem mint_provenance (at_ : Location) (limit : Int) :
    (s.mint name at_ limit).provenance = s.provenance := rfl

theorem stateOf_congr {s t : FlowState} (h : s.states = t.states) (x : String) :
    s.stateOf x = t.stateOf x := by
  rw [stateOf, stateOf, h]

variable {s name}

@[simp] theorem stateOf_setState {state : OwnershipState} {x : String} :
    (s.setState name state).stateOf x = if name = x then state else s.stateOf x := by
  simp [stateOf, setState, ExtTreeMap.getD_insert]

theorem mem_states_setState {state : OwnershipState} {x : String} :
    x ∈ (s.setState name state).states ↔ name = x ∨ x ∈ s.states := by
  simp [setState]

@[simp] theorem mem_keepLoans {p : Loan → Bool} {l : Loan} :
    l ∈ (s.keepLoans p).loans ↔ l ∈ s.loans ∧ p l = true := Loans.mem_keep

@[simp] theorem mem_addLoan {loan l : Loan} {span : Span} :
    l ∈ (s.addLoan loan span).loans ↔ loan = l ∨ l ∈ s.loans := Loans.mem_add

@[simp] theorem mem_addLoans {loans : Loans} {l : Loan} :
    l ∈ (s.addLoans loans).loans ↔ l ∈ s.loans ∨ l ∈ loans := Loans.mem_join

@[simp] theorem mem_loansOn {place : String} {l : Loan} :
    l ∈ s.loansOn place ↔ l ∈ s.loans ∧ l.place = place := by
  simp [loansOn]

@[simp] theorem mem_loansHeldBy {holder : Option String} {l : Loan} :
    l ∈ s.loansHeldBy holder ↔ l ∈ s.loans ∧ l.ref = holder := by
  simp [loansHeldBy]

@[simp] theorem mem_removeLoans {gone : List Loan} {l : Loan} :
    l ∈ (s.removeLoans gone).loans ↔ l ∈ s.loans ∧ l ∉ gone := by
  simp [removeLoans]

@[simp] theorem mem_killLoansHeldBy {holder : Option String} {l : Loan} :
    l ∈ (s.killLoansHeldBy [holder]).loans ↔ l ∈ s.loans ∧ l.ref ≠ holder := by
  simp [killLoansHeldBy]

@[simp] theorem mem_defineRef {ref : String} {l : Loan} :
    l ∈ (s.defineRef ref).loans ↔ l ∈ s.loans ∧ l.ref ≠ some ref := mem_killLoansHeldBy

@[simp] theorem mem_declare {l : Loan} :
    l ∈ (s.declare name).loans ↔ l ∈ s.loans ∧ l.ref ≠ some name :=
  mem_killLoansHeldBy

@[simp] theorem foldl_drop_loans (names : List String) (s : FlowState) :
    (names.foldl .drop s).loans = s.loans := by
  induction names generalizing s with
  | nil => rfl
  | cons name names ih => exact ih (s.drop name)

@[simp] theorem getElem?_setProvenance {lts : Names} {x : String} :
    (s.setProvenance name lts).provenance[x]? = if name = x then some lts
      else s.provenance[x]? := by
  simp [setProvenance, ExtTreeMap.getElem?_insert]

@[simp] theorem getElem?_forgetProvenance {x : String} :
    (s.forgetProvenance name).provenance[x]? = if name = x then none else s.provenance[x]? := by
  simp [forgetProvenance, ExtTreeMap.getElem?_erase]

@[simp] theorem getElem?_setResources {held : Resources} {x : String} :
    (s.setResources name held).resources[x]? = if name = x then some held else s.resources[x]? := by
  simp [setResources, ExtTreeMap.getElem?_insert]

@[simp] theorem getElem?_forgetResources {x : String} :
    (s.forgetResources name).resources[x]? = if name = x then none else s.resources[x]? := by
  simp [forgetResources, ExtTreeMap.getElem?_erase]

/-- What is known of a name, and forgotten with it, is forgotten if the name is among those that
go. -/
theorem foldl_drop_view {α : Type} (view : FlowState → α) {gone : α} {x : String}
    (hdrop : ∀ s y, view (s.drop y) = if y = x then gone else view s) (names : List String)
    (s : FlowState) :
    view (names.foldl .drop s) = if x ∈ names then gone else view s := by
  induction names generalizing s with
  | nil => simp
  | cons y names ih =>
    rw [List.foldl_cons, ih, hdrop]
    by_cases hx : x ∈ names <;> by_cases hy : y = x <;> simp [hx, hy, eq_comm (a := x)]

theorem foldl_drop_states (names : List String) (s : FlowState) (x : String) :
    (names.foldl .drop s).states[x]? = if x ∈ names then some .dropped else s.states[x]? :=
  foldl_drop_view (fun s => s.states[x]?)
    (by simp [drop, setState, ExtTreeMap.getElem?_insert]) names s

theorem foldl_drop_provenance (names : List String) (s : FlowState) (x : String) :
    (names.foldl .drop s).provenance[x]? = if x ∈ names then none else s.provenance[x]? :=
  foldl_drop_view (fun s => s.provenance[x]?) (by simp [drop]) names s

theorem foldl_drop_resources (names : List String) (s : FlowState) (x : String) :
    (names.foldl .drop s).resources[x]? = if x ∈ names then none else s.resources[x]? :=
  foldl_drop_view (fun s => s.resources[x]?) (by simp [drop]) names s

theorem getElem?_mint {origin : Location} {limit : Int} {x : String} :
    (s.mint name origin limit).resources[x]? =
      if name = x then some {{ origin : Resource }}
      else (s.resources[x]?).map fun held => ageResources held origin limit := by
  simp [mint, ExtTreeMap.getElem?_insert]

/-- A resource after ageing is an old one that came from elsewhere, or one of this point grown
older. -/
theorem mem_ageResources {held : Resources} {origin : Location} {limit : Int} {r : Resource} :
    r ∈ ageResources held origin limit ↔
      ∃ q ∈ held, (if q.origin = origin then q.aged limit else q) = r := by
  simp [ageResources, ExtTreeSet.mem_ofList]

end FlowState

end Ownership

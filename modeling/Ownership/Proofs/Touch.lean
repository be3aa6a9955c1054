import Ownership.Proofs.Operations

/-! # What operations do to the state of each binding

An operation touches bindings in ways that depend on the program alone and not on the flow state.
What becomes of the state of a binding, and which complaints about it are found, follows from the
touches of that binding and its state before. So for one binding a block is a small automaton.
-/
namespace Ownership
open Std

inductive Touch
  /-- Its value is read, written through or lent. -/
  | use
  /-- Its value is taken out. -/
  | take
  /-- It gets a value, unless it is gone. -/
  | give
  /-- It gets a value whatever its state. -/
  | define
  | declare
  | drop
deriving DecidableEq

namespace Touch
variable {a : Touch} {as bs : List Touch} {s t : OwnershipState}

def next : Touch → OwnershipState → OwnershipState
  | use, s => s
  | take, .owned => .moved
  | take, s => s
  | give, .dropped => .dropped
  | give, _ => .owned
  | define, _ => .owned
  | declare, _ => .uninitialized
  | drop, _ => .dropped

def blames : Touch → OwnershipState → Bool
  | use, s | take, s => s != .owned
  | give, s => s == .dropped
  | _, _ => false

def run (as : List Touch) (s : OwnershipState) : OwnershipState := as.foldl (fun s a => a.next s) s

def faults : List Touch → OwnershipState → List DiagnosticKind
  | [], _ => []
  | a :: as, s => (if a.blames s then [s.fault] else []) ++ faults as (a.next s)

@[simp] theorem run_nil : run [] s = s := rfl

@[simp] theorem run_cons : run (a :: as) s = run as (a.next s) := rfl

theorem run_append : run (as ++ bs) s = run bs (run as s) := List.foldl_append

theorem faults_append : faults (as ++ bs) s = faults as s ++ faults bs (run as s) := by
  induction as generalizing s with
  | nil => rfl
  | cons a as ih => rw [List.cons_append, faults, faults, run_cons, ih, List.append_assoc]

/-- How much a state allows: everything, a new value, or nothing. -/
def allowance : OwnershipState → Nat
  | .owned => 2
  | .uninitialized | .moved => 1
  | .dropped => 0

theorem allowance_le_of_rank_le (h : s.rank ≤ t.rank) : allowance s ≤ allowance t := by
  cases s <;> cases t <;> first | decide | (exfalso; revert h; decide)

theorem allowance_next_le (h : allowance s ≤ allowance t) :
    allowance (a.next s) ≤ allowance (a.next t) := by
  cases a <;> cases s <;> cases t <;> first | decide | (exfalso; revert h; decide)

theorem blames_of_allowance_le (h : allowance s ≤ allowance t) (ht : a.blames t = true) :
    a.blames s = true := by
  cases a <;> cases s <;> cases t <;> first | rfl | (exfalso; revert h ht; decide)

theorem allowance_run_le (as : List Touch) (h : allowance s ≤ allowance t) :
    allowance (run as s) ≤ allowance (run as t) := by
  induction as generalizing s t with
  | nil => exact h
  | cons a as ih => exact ih (allowance_next_le h)

/-- Where a binding that is allowed more is complained about, one that is allowed less is too. -/
theorem faults_ne_nil (as : List Touch) (h : allowance s ≤ allowance t) (ht : faults as t ≠ []) :
    faults as s ≠ [] := by
  induction as generalizing s t with
  | nil => exact ht
  | cons a as ih =>
    rw [faults] at ht ⊢
    by_cases hb : a.blames t = true
    · rw [blames_of_allowance_le h hb]
      simp
    · rw [if_neg hb, List.nil_append] at ht
      have hrest := ih (allowance_next_le h) ht
      simp [hrest]

end Touch

abbrev Trace := List (String × Touch)

def Trace.on (tr : Trace) (x : String) : List Touch := (tr.filter fun e => e.1 == x).map Prod.snd

@[simp] theorem Trace.on_nil (x : String) : Trace.on [] x = [] := rfl

theorem Trace.on_singleton (name : String) (a : Touch) (x : String) :
    Trace.on [(name, a)] x = if name = x then [a] else [] := by
  by_cases hx : name = x <;> simp [Trace.on, hx]

@[simp] theorem Trace.on_append (tr tr' : Trace) (x : String) :
    Trace.on (tr ++ tr') x = Trace.on tr x ++ Trace.on tr' x := by
  simp [Trace.on]

def Violation.complaints (vs : List Violation) (x : String) : List DiagnosticKind :=
  (vs.filter fun v => v.kind.isUseState && v.subject == x).map Violation.kind

@[simp] theorem Violation.complaints_nil (x : String) : complaints [] x = [] := rfl

theorem Violation.complaints_singleton {v : Violation} (hv : v.kind.isUseState = true)
    (x : String) : complaints [v] x = if v.subject = x then [v.kind] else [] := by
  by_cases hx : v.subject = x <;> simp [complaints, hv, hx]

@[simp] theorem Violation.complaints_append (vs ws : List Violation) (x : String) :
    complaints (vs ++ ws) x = complaints vs x ++ complaints ws x := by
  simp [complaints]

theorem Violation.mem_complaints {vs : List Violation} {x : String} {kind : DiagnosticKind} :
    kind ∈ complaints vs x ↔ ∃ v ∈ vs, v.kind.isUseState = true ∧ v.subject = x ∧
    v.kind = kind := by
  simp [complaints, and_assoc]

theorem Violation.complaints_eq_nil {vs : List Violation} (h : ∀ v ∈ vs, v.kind.isUseState = false)
    (x : String) : complaints vs x = [] := by
  rw [complaints, List.filter_eq_nil_iff.mpr, List.map_nil]
  intro v hv
  simp [h v hv]

/-- A change of the flow state, with the violations found in it, does to each binding what the
touches of that binding do. -/
structure Follows (tr : Trace) (s : FlowState) (vs : List Violation) (t : FlowState) : Prop where
  state : ∀ x, t.stateOf x = Touch.run (Trace.on tr x) (s.stateOf x)
  complaints : ∀ x, Violation.complaints vs x = Touch.faults (Trace.on tr x) (s.stateOf x)

namespace Follows
variable {tr tr' : Trace} {s t u : FlowState} {vs ws : List Violation} {name : String} {a : Touch}

/-- Nothing is touched. -/
theorem of_same (ht : ∀ x, t.stateOf x = s.stateOf x) (hvs : ∀ v ∈ vs, v.kind.isUseState = false) :
    Follows [] s vs t where
  state := ht
  complaints x := Violation.complaints_eq_nil hvs x

theorem append (h : Follows tr s vs u) (h' : Follows tr' u ws t) :
    Follows (tr ++ tr') s (vs ++ ws) t where
  state x := by rw [h'.state, h.state, Trace.on_append, Touch.run_append]
  complaints x := by
    rw [Violation.complaints_append, h.complaints, h'.complaints, h.state, Trace.on_append,
      Touch.faults_append]

theorem then_same (h : Follows tr s vs u) (ht : ∀ x, t.stateOf x = u.stateOf x) :
    Follows tr s vs t where
  state x := (ht x).trans (h.state x)
  complaints := h.complaints

/-- One binding is touched, and complained about if its state does not allow it. -/
theorem single {v : Option Violation}
    (hstate : ∀ x, t.stateOf x = if name = x then a.next (s.stateOf name) else s.stateOf x)
    (hv : (a.blames (s.stateOf name) = true ∧ ∃ w, v = some w ∧ w.kind = (s.stateOf name).fault ∧
      w.subject = name) ∨
      (a.blames (s.stateOf name) = false ∧ ∀ w ∈ v, w.kind.isUseState = false)) :
    Follows [(name, a)] s v.toList t := by
  refine ⟨fun x => ?_, fun x => ?_⟩
  · rw [hstate, Trace.on_singleton]
    split
    · rename_i hx
      rw [hx]
      rfl
    · rfl
  · rw [Trace.on_singleton]
    rcases hv with ⟨hblame, w, rfl, hkind, rfl⟩ | ⟨hblame, hw⟩
    · have huse : w.kind.isUseState = true := by rw [hkind, OwnershipState.fault_isUseState]
      rw [Option.toList_some, Violation.complaints_singleton huse, hkind]
      split
      · rename_i hx
        rw [← hx]
        simp [Touch.faults, hblame]
      · rfl
    · rw [Violation.complaints_eq_nil fun w hmem => hw w (Option.mem_toList.mp hmem)]
      split
      · rename_i hx
        rw [← hx]
        simp [Touch.faults, hblame]
      · rfl

/-- One binding is used. -/
theorem used {v : Option Violation} (hstate : ∀ x, t.stateOf x = s.stateOf x)
    (hv : (s.stateOf name ≠ .owned ∧ ∃ w, v = some w ∧ w.kind = (s.stateOf name).fault ∧
      w.subject = name) ∨
      (s.stateOf name = .owned ∧ ∀ w ∈ v, w.kind.isUseState = false)) :
      Follows [(name, .use)] s v.toList t := by
  refine single (fun x => ?_) ?_
  · rw [hstate]
    split
    · rename_i hx
      rw [hx]
      rfl
    · rfl
  · rcases hv with ⟨hstate, hv⟩ | ⟨hstate, hv⟩
    · exact Or.inl ⟨by simpa [Touch.blames] using hstate, hv⟩
    · exact Or.inr ⟨by simpa [Touch.blames] using hstate, hv⟩

end Follows

namespace Site
open FlowState
variable {c : Site} {s t : FlowState} {name dest source ref : String}

def taking (c : Site) (name : String) : Touch :=
  match c.isDuplicable name with
  | .ok true => .use
  | _ => .take

theorem read_follows (c : Site) (s : FlowState) (name action : String) :
    Follows [(name, .use)] s (c.readViolation s name action).toList s := by
  refine .used (fun _ => rfl) ?_
  cases hv : c.readViolation s name action with
  | none => exact Or.inr ⟨(readViolation_eq_none.mp hv).1, by simp⟩
  | some v =>
    rcases readViolation_inv hv with ⟨hstate, hkind⟩ | ⟨hstate, hkind⟩
    · exact Or.inl ⟨hstate, v, rfl, hkind⟩
    · refine Or.inr ⟨hstate, ?_⟩
      rintro _ ⟨⟩
      rw [hkind]
      rfl

theorem IsOverwrite.isUseState {v : Violation} (h : IsOverwrite name v) :
    v.kind.isUseState = false := by
  rcases h with rfl | ⟨related, rfl⟩ <;> rfl

theorem write_follows {v : Option Violation} (h : (c.write name).run s = .ok v t) :
    Follows [(name, .use)] s v.toList t := by
  cases v with
  | none =>
    obtain ⟨hw, tracks, -, rfl⟩ := write_none_iff.mp h
    exact .used (stateOf_renew tracks s) (Or.inr ⟨hw.owned, by simp⟩)
  | some v =>
    obtain ⟨rfl, hcase⟩ := write_some_inv h
    refine .used (fun _ => rfl) ?_
    rcases hcase with ⟨hstate, hkind⟩ | ⟨hstate, hover⟩
    · exact Or.inl ⟨hstate, v, rfl, hkind⟩
    · refine Or.inr ⟨hstate, ?_⟩
      rintro _ ⟨⟩
      exact hover.isUseState

theorem writeThrough_follows {v : Option Violation} (h : (c.writeThrough name).run s = .ok v t) :
    Follows [(name, .use)] s v.toList t := by
  rcases writeThrough_inv h with ⟨rfl, rfl | ⟨hstate, rfl⟩⟩ | hwrite
  · exact read_follows c t name _
  · refine .used (fun _ => rfl) (Or.inr ⟨hstate, ?_⟩)
    rintro _ ⟨⟩
    rfl
  · exact write_follows hwrite

theorem moveOut_follows {v : Option Violation} (h : (c.moveOut name).run s = .ok v t) :
    Follows [(name, c.taking name)] s v.toList t := by
  rcases moveOut_inv h with ⟨hdup, rfl, rfl⟩ | ⟨hdup, hstate, rfl, hv⟩ | ⟨hdup, hstate, rfl, hv⟩
  · rw [taking, hdup]
    exact read_follows c t name _
  · rw [taking, hdup]
    refine .single (fun x => ?_) (Or.inl ⟨by simpa [Touch.blames] using hstate, hv⟩)
    split
    · rename_i hx
      subst hx
      cases hs : t.stateOf name <;> first | exact absurd hs hstate | rfl
    · rfl
  · rw [taking, hdup]
    refine .single (fun x => ?_) (Or.inr ⟨by simp [Touch.blames, hstate], fun w hw => ?_⟩)
    · rw [stateOf_setState, hstate]
      rfl
    · rw [hv w hw]
      rfl

theorem lend_follows {kind : LoanKind} {mutable : Bool} {result : Except Violation Loan}
    (h : (c.lend name kind mutable).run s = .ok result t) :
    Follows [(name, .use)] s (match result with | .ok _ => [] | .error v => [v]) t := by
  obtain ⟨hresult, rfl⟩ := lend_iff.mp h
  cases result with
  | ok loan =>
    have hstate := (checkBorrow_ok_iff.mp hresult.symm).1
    exact .used (v := none) (fun _ => rfl) (Or.inr ⟨hstate, by simp⟩)
  | error v =>
    refine .used (v := some v) (fun _ => rfl) ?_
    rcases checkBorrow_error_inv hresult.symm with ⟨hstate, hkind⟩ | ⟨hstate, hkind⟩
    · exact Or.inl ⟨hstate, v, rfl, hkind⟩
    · refine Or.inr ⟨hstate, ?_⟩
      rintro _ ⟨⟩
      exact hkind

theorem borrow_follows {kind : LoanKind} {v : Option Violation}
    (h : (c.borrow name kind ref).run s = .ok v t) :
    Follows [(name, .use), (ref, .define)] s v.toList t := by
  obtain ⟨b, through, -, -, hcase⟩ := borrow_iff.mp h
  have hdefine : Follows [(ref, .define)] s [] (s.defineRef ref) :=
    .single (v := none) (fun x => stateOf_setState) (Or.inr ⟨rfl, by simp⟩)
  rcases hcase with ⟨w, hrefused, rfl, rfl⟩ | ⟨loan, hgranted, rfl, rfl⟩
  · have huse : Follows [(name, .use)] s [w] s := by
      refine .used (v := some w) (fun _ => rfl) ?_
      rcases checkBorrow_error_inv hrefused with ⟨hstate, hkind⟩ | ⟨hstate, hkind⟩
      · exact Or.inl ⟨hstate, w, rfl, hkind⟩
      · refine Or.inr ⟨hstate, ?_⟩
        rintro _ ⟨⟩
        exact hkind
    exact huse.append hdefine
  · have huse : Follows [(name, .use)] s [] s :=
      .used (v := none) (fun _ => rfl) (Or.inr ⟨(checkBorrow_ok_iff.mp hgranted).1, by simp⟩)
    exact (huse.append hdefine).then_same fun _ => rfl

theorem store_follows {v : Option Violation} (h : (c.store name).run s = .ok v t) :
    Follows [(name, .give)] s v.toList t := by
  cases v with
  | none =>
    obtain ⟨hdrop, -, isRef, tracks, -, -, rfl⟩ := store_none_iff.mp h
    refine .single (fun x => ?_) (Or.inr ⟨by simpa [Touch.blames] using hdrop, by simp⟩)
    rw [stateOf_given]
    cases hs : s.stateOf name <;> first | exact absurd hs hdrop | rfl
  | some v =>
    obtain ⟨rfl, hcase⟩ := store_some_inv h
    have hsame : ∀ state : OwnershipState, t.stateOf name = state → Touch.next .give state = state →
        ∀ x, t.stateOf x = if name = x then Touch.next .give (t.stateOf name) else t.stateOf x := by
      intro state hs hnext x
      split
      · rename_i hx
        rw [← hx, hs, hnext]
      · rfl
    rcases hcase with ⟨hstate, hkind, hsubject⟩ | ⟨hstate, hover⟩
    · refine .single (hsame _ hstate rfl) (Or.inl ⟨by rw [hstate]; rfl, v, rfl, ?_, hsubject⟩)
      rw [hkind, hstate]
      rfl
    · refine .single (hsame _ hstate rfl) (Or.inr ⟨by rw [hstate]; rfl, ?_⟩)
      rintro _ ⟨⟩
      exact hover.isUseState

theorem transfer_same {moved : Bool} (h : (c.transfer dest source moved).run s = .ok () t)
    (x : String) : t.stateOf x = s.stateOf x := by
  rcases transfer_iff.mp h with ⟨toRef, -, -, rfl⟩ | ⟨tracks, -, -, ⟨-, rfl⟩ | ⟨-, takes, -, rfl⟩⟩
  · rw [carryLoans]
    cases moved <;> cases toRef <;> rfl
  · rfl
  · cases takes
    · rfl
    · rw [if_pos rfl, carryResources]
      cases moved <;> cases s.resources[source]? <;> rfl

theorem foldl_drop_follows (names : List String) (s : FlowState) :
    Follows (names.map fun x => (x, .drop)) s [] (names.foldl .drop s) := by
  induction names generalizing s with
  | nil => exact .of_same (fun _ => rfl) (by simp)
  | cons name names ih =>
    have hone : Follows [(name, .drop)] s [] (s.drop name) :=
      .single (v := none) (fun x => stateOf_setState) (Or.inr ⟨rfl, by simp⟩)
    exact hone.append (ih (s.drop name))

theorem dropScope_follows {scope : String} {vs : List Violation}
    (h : (c.dropScope scope).run s = .ok vs t) :
    Follows ((c.bindingsOf scope).map fun x => (x, .drop)) s vs t := by
  obtain ⟨hvs, rfl⟩ := dropScope_iff.mp h
  have hloose : ∀ v ∈ vs, v.kind.isUseState = false := by
    intro v hv
    rw [hvs] at hv
    obtain ⟨e, -, he⟩ := List.mem_filterMap.mp hv
    rw [dangling?_kind he]
    rfl
  have hkept : Follows [] s vs (s.keepLoans fun l =>
      !(c.bindingsOf scope).contains l.place && l.ref.all fun r =>
        !(c.bindingsOf scope).contains r) :=
    .of_same (fun _ => rfl) hloose
  have hall := hkept.append (foldl_drop_follows (c.bindingsOf scope) _)
  rwa [List.nil_append, List.append_nil] at hall

end Site

namespace Checker
open FlowState
variable {k : Checker} {c : Site} {s t : FlowState} {vs : List Violation}

def passing (k : Checker) (c : Site) (e : String × Param) : Trace :=
  match k.manner c e.1 e.2 with
  | .ok .value => [(e.1, c.taking e.1)]
  | .ok _ => [(e.1, .use)]
  | .error _ => []

def operandTrace (k : Checker) (c : Site) : Op → Trace
  | .init _ source => source.toList.map fun x => (x, c.taking x)
  | .move _ source => [(source, c.taking source)]
  | .copy _ source => [(source, .use)]
  | .borrow binding _ _ => [(binding, .use)]
  | .use ref => [(ref, .use)]
  | .write target value => value.toList.map (fun x => (x, c.taking x)) ++ [(target, .use)]
  | .call call =>
    match (k.signaturesFor c.function).get? call.function with
    | none => []
    | some sig => (call.args.zip sig.params).flatMap (k.passing c)
  | _ => []

def targetTrace (c : Site) : Op → Trace
  | .declare binding => [(binding, .declare)]
  | .borrow _ _ ref => [(ref, .define)]
  | .endScope scope => (c.bindingsOf scope).map fun x => (x, .drop)
  | op => op.assigned?.toList.map fun x => (x, .give)

def trace (k : Checker) (c : Site) (op : Op) : Trace := k.operandTrace c op ++ targetTrace c op

theorem trace_call (call : Call) :
    k.trace c (.call call) = k.operandTrace c (.call call) ++ call.dest.toList.map fun x =>
      (x, .give) := rfl

theorem pass_follows {m : Manner} {callee : String} {e : String × Param} {given passed : Passed}
    (hm : k.manner c e.1 e.2 = .ok m) (h : (m.pass c callee given e.1).run s = .ok passed t) :
    ∃ ws, passed.violations = given.violations ++ ws ∧ Follows (k.passing c e) s ws t := by
  rw [passing, hm]
  cases m with
  | value =>
    rcases passValue_iff.mp h with ⟨v, hmove, rfl⟩ | ⟨hmove, rfl⟩
    · exact ⟨[v], rfl, Site.moveOut_follows hmove⟩
    · exact ⟨[], (List.append_nil _).symm, Site.moveOut_follows hmove⟩
  | owner exclusive =>
    obtain ⟨b, -, ⟨v, hlend, rfl⟩ | ⟨loan, hlend, rfl⟩⟩ := passOwner_iff.mp h
    · exact ⟨[v], rfl, Site.lend_follows hlend⟩
    · exact ⟨[], (List.append_nil _).symm, Site.lend_follows hlend⟩
  | reference exclusive =>
    rcases passReference_iff.mp h with ⟨v, hread, rfl, rfl⟩ | ⟨hread, writes, -, hcase⟩
    · have hf := Site.read_follows c t e.1 "use"
      rw [hread] at hf
      exact ⟨[v], rfl, hf⟩
    · have howned := (Site.readViolation_eq_none.mp hread).1
      rcases hcase with ⟨-, -, rfl, rfl⟩ | ⟨-, ⟨v, hlend, rfl⟩ | ⟨loan, hlend, rfl⟩⟩
      · refine ⟨[_], rfl, .used (v := some _) (fun _ => rfl) (Or.inr ⟨howned, ?_⟩)⟩
        rintro _ ⟨⟩
        rfl
      · exact ⟨[v], rfl, Site.lend_follows hlend⟩
      · exact ⟨[], (List.append_nil _).symm, Site.lend_follows hlend⟩

theorem passAll_follows {callee : String} (args : List (String × Param)) {given passed : Passed}
    (h : (k.passAll c callee args given).run s = .ok passed t) :
    ∃ ws, passed.violations = given.violations ++ ws ∧
      Follows (args.flatMap (k.passing c)) s ws t := by
  induction args generalizing given s with
  | nil =>
    cases h
    exact ⟨[], (List.append_nil _).symm, .of_same (fun _ => rfl) (by simp)⟩
  | cons e args ih =>
    obtain ⟨m, q, u, hm, hpass, hrest⟩ := passAll_cons_iff.mp h
    obtain ⟨ws, hws, hf⟩ := pass_follows hm hpass
    obtain ⟨ws', hws', hf'⟩ := ih hrest
    exact ⟨ws ++ ws', by rw [hws', hws, List.append_assoc], hf.append hf'⟩

def Prepares (k : Checker) (c : Site) (s : FlowState) (vs : List Violation)
    (t : FlowState) : Op → Prop
  | .init _ none => vs = [] ∧ t = s
  | .init _ (some source) | .move _ source =>
    ∃ taken, (c.moveOut source).run s = .ok taken t ∧ vs = taken.toList
  | .copy _ source => ∃ invalid, c.MiscopiedAs source invalid ∧
      vs = invalid ++ (c.readViolation s source "copy").toList ∧ t = s
  | .call call => ∃ sig passed u, (k.signaturesFor c.function).get? call.function = some sig ∧
      (k.passAll c call.function (call.args.zip sig.params) {}).run s = .ok passed u ∧
      vs = passed.violations ∧
      t = u.removeLoans passed.loans
  | _ => False

theorem prepares_follows {op : Op} (h : k.Prepares c s vs t op) :
    Follows (k.operandTrace c op) s vs t := by
  cases op with
  | init binding source =>
    cases source with
    | none =>
      obtain ⟨rfl, rfl⟩ := h
      exact .of_same (fun _ => rfl) (by simp)
    | some source =>
      obtain ⟨taken, hmove, rfl⟩ := h
      exact Site.moveOut_follows hmove
  | move dest source =>
    obtain ⟨taken, hmove, rfl⟩ := h
    exact Site.moveOut_follows hmove
  | copy dest source =>
    obtain ⟨invalid, hinvalid, rfl, rfl⟩ := h
    have htype : ∀ v ∈ invalid, v.kind.isUseState = false := by
      rcases hinvalid with ⟨-, rfl⟩ | ⟨-, b, type, -, -, rfl⟩
      · simp
      · simp only [List.mem_singleton, forall_eq]
        rfl
    exact (Follows.of_same (fun _ => rfl) htype).append (Site.read_follows c t source "copy")
  | call call =>
    obtain ⟨sig, passed, u, hsig, hpass, rfl, rfl⟩ := h
    obtain ⟨ws, hws, hf⟩ := passAll_follows _ hpass
    rw [operandTrace, hsig, hws]
    exact hf.then_same fun _ => rfl
  | _ => exact h.elim

/-- An operation that gives a value reads its operands and then gives its target the value. -/
theorem assigned_inv {op : Op} {target : String} (hop : op.assigned? = some target)
    (h : (k.applyOp c op).run s = .ok vs t) : ∃ ws u refused w, k.Prepares c s ws u op ∧
      (c.store target).run u = .ok refused w ∧ vs = ws ++ refused.toList ∧
        ∀ x, t.stateOf x = w.stateOf x := by
  have hcarry : ∀ {go : Prop} {dest source : String} {moved : Bool} {w t : FlowState},
      c.CarriesIf go dest source moved w t → ∀ x, t.stateOf x = w.stateOf x := by
    rintro _ _ _ _ _ _ (⟨-, htransfer⟩ | ⟨-, rfl⟩) x
    · exact Site.transfer_same htransfer x
    · rfl
  cases op with
  | init binding source =>
    cases hop
    cases source with
    | none =>
      obtain ⟨refused, hgive, rfl⟩ := Site.assign_none_iff.mp h
      exact ⟨[], s, refused, t, ⟨rfl, rfl⟩, hgive, rfl, fun _ => rfl⟩
    | some source =>
      obtain ⟨dup, taken, u, refused, w, -, htake, hgive, rfl, hc⟩ := Site.assign_some_iff.mp h
      exact ⟨_, u, refused, w, ⟨taken, htake, rfl⟩, hgive, rfl, hcarry hc⟩
  | move dest source =>
    cases hop
    obtain ⟨dup, taken, u, refused, w, -, htake, hgive, rfl, hc⟩ := Site.assign_some_iff.mp h
    exact ⟨_, u, refused, w, ⟨taken, htake, rfl⟩, hgive, rfl, hcarry hc⟩
  | copy dest source =>
    cases hop
    obtain ⟨invalid, hinvalid, h⟩ := Site.copy_iff.mp h
    obtain ⟨refused, w, hgive, rfl, hc⟩ := Site.copyTyped_iff.mp h
    refine ⟨_, s, refused, w, ⟨invalid, hinvalid, rfl, rfl⟩, hgive, rfl, fun x => ?_⟩
    rcases hc with ⟨-, u, tracks, htransfer, -, rfl⟩ | ⟨-, rfl⟩
    · rw [Site.stateOf_renew, Site.transfer_same htransfer]
    · rfl
  | call call =>
    obtain ⟨sig, passed, u, hsig, hpass, hcase⟩ := applyCall_iff.mp h
    rcases hcase with ⟨hdest, -, -⟩ | ⟨dest, inherited, ws, hdest, -, hreceive, rfl⟩
    · cases hdest.symm.trans hop
    · cases hdest.symm.trans hop
      obtain ⟨refused, w, isRef, hgive, -, rfl, rfl⟩ := receive_iff.mp hreceive
      refine ⟨_, _, refused, w, ⟨sig, passed, u, hsig, hpass, rfl, rfl⟩, hgive, rfl, fun x => ?_⟩
      split <;> rfl
  | _ => cases hop

theorem applyOp_assigned_follows {op : Op} {target : String} (hop : op.assigned? = some target)
    (h : (k.applyOp c op).run s = .ok vs t) :
    Follows (k.operandTrace c op ++ [(target, .give)]) s vs t := by
  obtain ⟨ws, u, refused, w, hprep, hgive, rfl, hsame⟩ := assigned_inv hop h
  exact ((prepares_follows hprep).append (Site.store_follows hgive)).then_same hsame

theorem applyOp_follows {op : Op} (h : (k.applyOp c op).run s = .ok vs t) :
    Follows (k.trace c op) s vs t := by
  cases op with
  | declare binding =>
    cases h
    exact .single (v := none) (fun x => stateOf_setState) (Or.inr ⟨rfl, by simp⟩)
  | init binding source => exact applyOp_assigned_follows rfl h
  | move dest source => exact applyOp_assigned_follows rfl h
  | copy dest source => exact applyOp_assigned_follows rfl h
  | borrow binding kind ref =>
    obtain ⟨v, hv, rfl⟩ := run_toList_iff.mp h
    exact Site.borrow_follows hv
  | use ref =>
    obtain ⟨v, hv, rfl⟩ := run_toList_iff.mp h
    rw [Site.run_read] at hv
    cases hv
    exact Site.read_follows c s ref "use"
  | write target value =>
    cases value with
    | none =>
      obtain ⟨v, hv, rfl⟩ := run_toList_iff.mp h
      exact Site.writeThrough_follows hv
    | some value =>
      obtain ⟨taken, u, refused, htake, hwrite, rfl⟩ := applyOp_write_some_iff.mp h
      exact (Site.moveOut_follows htake).append (Site.writeThrough_follows hwrite)
  | call call =>
    cases hdest : call.dest with
    | some dest =>
      rw [trace_call, hdest]
      exact applyOp_assigned_follows hdest h
    | none =>
      obtain ⟨sig, passed, u, hsig, hpass, ⟨-, rfl, rfl⟩ | ⟨dest, _, _, hsome, _⟩⟩ :=
        applyCall_iff.mp h
      · have hprep : k.Prepares c s passed.violations (u.removeLoans passed.loans) (.call call) :=
          ⟨sig, passed, u, hsig, hpass, rfl, rfl⟩
        rw [trace_call, hdest, Option.toList_none, List.map_nil, List.append_nil]
        exact prepares_follows hprep
      · cases hdest.symm.trans hsome
  | endScope scope => exact Site.dropScope_follows h
  | unsupported name => cases h

def endingTrace (c : Site) : Option Terminator → Trace
  | some (.branch _ _ cond) => cond.toList.map fun x => (x, .use)
  | some (.ret (some value)) =>
    match c.isRef value with
    | .ok true => [(value, .use)]
    | _ => [(value, c.taking value)]
  | _ => []

theorem applyTerminator_follows {terminator : Option Terminator}
    (h : (applyTerminator c terminator).run s = .ok vs t) :
    Follows (endingTrace c terminator) s vs t := by
  have hnothing : Follows [] s [] s := .of_same (fun _ => rfl) (by simp)
  cases terminator with
  | none => cases h
  | some terminator =>
    cases terminator with
    | jump target =>
      cases h
      exact hnothing
    | branch thenTarget elseTarget cond =>
      cases cond with
      | none =>
        cases h
        exact hnothing
      | some cond =>
        obtain ⟨v, hv, rfl⟩ := run_toList_iff.mp h
        rw [Site.run_read] at hv
        cases hv
        exact Site.read_follows c s cond "use"
    | ret value =>
      cases value with
      | none =>
        cases h
        exact hnothing
      | some value =>
        rw [endingTrace]
        rcases applyReturn_iff.mp h with ⟨href, rfl, hcase⟩ | ⟨href, taken, htake, rfl⟩
        · rw [href]
          have hf := Site.read_follows c t value "return"
          rcases hcase with ⟨v, hread, rfl⟩ | ⟨hread, hret⟩
          · rwa [hread] at hf
          · have hrest : Follows [] t vs t := by
              refine .of_same (fun _ => rfl) fun v hv => ?_
              rcases returnReference_kind hret v hv with hkind | hkind <;> rw [hkind] <;> rfl
            rw [hread] at hf
            exact hf.append hrest
        · rw [href]
          exact Site.moveOut_follows htake
    | unsupported name => cases h

end Checker

end Ownership

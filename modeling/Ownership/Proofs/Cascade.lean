import Mathlib.Data.List.Forall2
import Ownership.Proofs.Replacement
import Ownership.Proofs.UseState

/-! # Complaints that follow from an earlier one

In a block, a complaint about the state of a binding is left out if there was one before and the
binding got no fresh value since. Whether it did is decided from its state behind an operation and
not from what the operation did. The two agree because a binding that has been complained about has
no value between two operations: if it has one behind an operation that defines it, it was given a
value there.
-/
namespace Ownership
open Std

theorem Except.forall₂_of_mapM {α β : Type} {g : α → Except Fault β} {l : List α} {ys : List β}
    (h : l.mapM g = .ok ys) : List.Forall₂ (fun x y => g x = .ok y) l ys := by
  induction l generalizing ys with
  | nil =>
    cases h
    exact .nil
  | cons x l ih =>
    obtain ⟨y, ys', hx, hl, rfl⟩ := Except.mapM_cons_inv h
    exact .cons hx (ih hl)

structure Finding where
  violation : Violation
  location : Location
  span : Span

def Event.findings (e : Event) : List Finding := e.violations.map fun v => ⟨v, e.location, e.span⟩

namespace Finding
variable {renewed : Int → String → Prop} {found found' kept : List Finding} {n : Int} {x : Finding}
    {name : String}

def diagnostic (x : Finding) : Diagnostic := x.violation.diagnostic x.location x.span

def Blames (x : Finding) (name : String) : Prop :=
  x.violation.kind.isUseState = true ∧ x.violation.subject = name

/-- There is a complaint about the binding, and no operation from there up to the given point,
without it, has given the binding a fresh value. -/
def Stained (renewed : Int → String → Prop) (found : List Finding) (n : Int)
    (name : String) : Prop :=
  ∃ y ∈ found, y.Blames name ∧ ∀ m, y.location.index ≤ m → m < n → ¬renewed m name

def Cascades (renewed : Int → String → Prop) (found : List Finding) (x : Finding) : Prop :=
  x.violation.kind.isUseState = true ∧ Stained renewed found x.location.index x.violation.subject

/-- Of the findings, in their order, those are kept that do not follow from an earlier one. -/
inductive Reports (renewed : Int → String → Prop) : List Finding → List Finding → Prop
  | nil : Reports renewed [] []
  | keep {found kept : List Finding} {x : Finding} (h : Reports renewed found kept)
      (hx : ¬Cascades renewed found x) : Reports renewed (found ++ [x]) (kept ++ [x])
  | leave {found kept : List Finding} {x : Finding} (h : Reports renewed found kept)
      (hx : Cascades renewed found x) : Reports renewed (found ++ [x]) kept

theorem stained_append : Stained renewed (found ++ found') n name ↔
    Stained renewed found n name ∨ Stained renewed found' n name := by
  simp only [Stained, List.mem_append, or_and_right, exists_or]

/-- At its own point nothing stands between a finding and what is found next. -/
theorem stained_here (hx : x.location.index = n) : Stained renewed [x] n name ↔ x.Blames name := by
  constructor
  · rintro ⟨y, hy, hblames, -⟩
    exact List.mem_singleton.mp hy ▸ hblames
  · intro hblames
    exact ⟨x, List.mem_singleton.mpr rfl, hblames, fun m hle hlt => by omega⟩

/-- Behind an operation a binding is stained if it was before and got no fresh value. -/
theorem stained_succ (hfound : ∀ y ∈ found, y.location.index ≤ n) :
    Stained renewed found (n + 1) name ↔ Stained renewed found n name ∧ ¬renewed n name := by
  constructor
  · rintro ⟨y, hy, hblames, hnot⟩
    exact ⟨⟨y, hy, hblames, fun m hle hlt => hnot m hle (by omega)⟩,
      hnot n (hfound y hy) (by omega)⟩
  · rintro ⟨⟨y, hy, hblames, hnot⟩, hn⟩
    refine ⟨y, hy, hblames, fun m hle hlt => ?_⟩
    rcases Int.lt_or_eq_of_le (Int.lt_add_one_iff.mp hlt) with hlt | rfl
    · exact hnot m hle hlt
    · exact hn

def Marks (renewed : Int → String → Prop) (found : List Finding) (n : Int)
    (blamed : Names) : Prop :=
  ∀ name, name ∈ blamed ↔ Stained renewed found n name

/-- One more finding stains the binding that it is about, if it is about the state of one. -/
theorem Marks.concat {blamed blamed' : Names} (h : Marks renewed found n blamed)
    (hx : x.location.index = n) (hblamed : ∀ name, name ∈ blamed' ↔ name ∈ blamed ∨ x.Blames name) :
    Marks renewed (found ++ [x]) n blamed' := by
  intro name
  rw [hblamed, h, stained_append, stained_here hx]

/-- What is kept of the violations of one point, and who is blamed behind them. -/
theorem reports_fresh (vs : List Violation) {blamed : Names} (location : Location) (span : Span)
    (h : Reports renewed found kept) (hblamed : Marks renewed found location.index blamed) :
    Reports renewed (found ++ vs.map fun v => ⟨v, location, span⟩)
      (kept ++ (Event.fresh vs blamed).1.map fun v => ⟨v, location, span⟩) ∧
    Marks renewed (found ++ vs.map fun v => ⟨v, location, span⟩) location.index
      (Event.fresh vs blamed).2 := by
  induction vs generalizing found kept blamed with
  | nil =>
    simp only [Event.fresh, List.map_nil, List.append_nil]
    exact ⟨h, hblamed⟩
  | cons v vs ih =>
    rw [List.map_cons, List.append_cons, Event.fresh]
    have hmarks : ∀ {blamed' : Names},
        (∀ name, name ∈ blamed' ↔ name ∈ blamed ∨ v.kind.isUseState = true ∧
        v.subject = name) → Marks renewed (found ++ [⟨v, location, span⟩]) location.index blamed' :=
      fun hblamed' => hblamed.concat rfl hblamed'
    by_cases huse : v.kind.isUseState = true
    · rw [if_pos huse]
      by_cases hold : blamed.contains v.subject = true
      · -- the violation follows from an earlier one, and its binding is blamed already
        rw [if_pos hold]
        have hmem := ExtTreeSet.contains_iff_mem.mp hold
        refine ih (h.leave ⟨huse, (hblamed _).mp hmem⟩) (hmarks fun name => ?_)
        exact ⟨Or.inl, fun hor => hor.elim id fun hblames => hblames.2 ▸ hmem⟩
      · rw [if_neg hold, List.map_cons, List.append_cons kept]
        refine ih (h.keep fun hx => ?_) (hmarks fun name => ?_)
        · exact hold (ExtTreeSet.contains_iff_mem.mpr ((hblamed _).mpr hx.2))
        · rw [ExtTreeSet.mem_insert, LawfulEqCmp.compare_eq_iff_eq, or_comm]
          simp [huse]
    · rw [if_neg huse, List.map_cons, List.append_cons kept]
      exact ih (h.keep fun hx => huse hx.1) (hmarks fun name => by simp [huse])

/-- What is reported of an event, and who is blamed behind it. The binding that is refreshed matters
only if it was blamed. -/
theorem reports_event {e : Event} (es : List Event) {blamed : Names}
    (h : Reports renewed found kept) (hblamed : Marks renewed found e.location.index blamed)
    (hfound : ∀ y ∈ found, y.location.index < e.location.index)
    (hrenewed : ∀ name, Stained renewed (found ++ e.findings) e.location.index name →
      (e.refreshed = some name ↔ renewed e.location.index name)) :
    ∃ kept' blamed', Reports renewed (found ++ e.findings) (kept ++ kept') ∧
      Marks renewed (found ++ e.findings) (e.location.index + 1) blamed' ∧
      (∀ name ∈ blamed', Stained renewed (found ++ e.findings) e.location.index name ∧
        e.refreshed ≠ some name) ∧
      Event.diagnostics (e :: es) blamed =
        kept'.map diagnostic ++ Event.diagnostics es blamed' := by
  obtain ⟨hreports, hmarks⟩ := reports_fresh e.violations e.location e.span h hblamed
  have hpoint : ∀ y ∈ found ++ e.findings, y.location.index ≤ e.location.index := by
    refine List.forall_mem_append.mpr ⟨fun y hy => Int.le_of_lt (hfound y hy), fun y hy => ?_⟩
    obtain ⟨v, -, rfl⟩ := List.mem_map.mp hy
    exact Int.le_refl _
  obtain ⟨blamed', hds, hblamed'⟩ : ∃ blamed' : Names,
      Event.diagnostics (e :: es) blamed = (Event.fresh e.violations blamed).1.map (fun v =>
        v.diagnostic e.location e.span) ++ Event.diagnostics es blamed' ∧
      ∀ name, name ∈ blamed' ↔ name ∈ (Event.fresh e.violations blamed).2 ∧
        e.refreshed ≠ some name := by
    refine ⟨_, rfl, fun name => ?_⟩
    cases e.refreshed with
    | none => simp
    | some y => simp [ExtTreeSet.mem_erase, and_comm]
  have hleft : ∀ name, name ∈ blamed' ↔
      Stained renewed (found ++ e.findings) e.location.index name ∧
      e.refreshed ≠ some name := fun name =>
    (hblamed' name).trans (and_congr_left fun _ => hmarks name)
  refine ⟨_, blamed', hreports, fun name => ?_, fun name => (hleft name).mp,
    by rw [hds, List.map_map]; rfl⟩
  rw [hleft, stained_succ hpoint]
  exact and_congr_right fun hstained => not_congr (hrenewed name hstained)

end Finding

namespace Touch
variable {a : Touch} {as : List Touch} {s : OwnershipState}

def Spends : Touch → Prop
  | use | take | drop => True
  | _ => False

/-- What is only spent from has a value in the end only if it had one all along. -/
theorem owned_of_spends (h : ∀ a ∈ as, a.Spends) (hrun : run as s = .owned) :
    s = .owned ∧ faults as s = [] := by
  induction as generalizing s with
  | nil => exact ⟨hrun, rfl⟩
  | cons a as ih =>
    obtain ⟨ha, has⟩ := List.forall_mem_cons.mp h
    obtain ⟨hnext, hfaults⟩ := ih has hrun
    have hs : a = .use ∧ s = .owned := by
      clear hrun hfaults
      revert ha hnext
      cases a <;> cases s <;> simp [Spends, next]
    obtain ⟨rfl, rfl⟩ := hs
    exact ⟨rfl, hfaults⟩

end Touch

theorem Op.defined?_of_assigned? {op : Op} {x : String} (h : op.assigned? = some x) :
    op.defined? = some x := by
  cases op <;> first | exact h | cases h

theorem Trace.mem_on {tr : Trace} {x : String} {a : Touch} : a ∈ tr.on x ↔ (x, a) ∈ tr := by
  simp [Trace.on]

namespace Checker
variable {k : Checker} {c : Site} {f : Function} {r : Regions} {b : Block} {op : Op}
    {i : Instruction}
variable {s s₀ t u : FlowState} {vs : List Violation} {e : Event} {es es₀ : List Event}
    {x : String} {n : Int}

theorem taking_spends (c : Site) (name : String) : (c.taking name).Spends := by
  rw [Site.taking]
  split <;> trivial

/-- Operands are only spent from. -/
theorem operandTrace_spends : ∀ e ∈ k.operandTrace c op, e.2.Spends := by
  have htaken : ∀ (value : Option String), ∀ e ∈ value.toList.map fun x =>
    (x, c.taking x), e.2.Spends := by
      intro value e he
      obtain ⟨x, -, rfl⟩ := List.mem_map.mp he
      exact taking_spends c x
  intro e he
  cases op with
  | init y source => exact htaken source e he
  | move dest source => exact htaken (some source) e he
  | write target value =>
    rcases List.mem_append.mp he with he | he
    · exact htaken value e he
    · cases List.mem_singleton.mp he
      trivial
  | call call =>
    rw [operandTrace] at he
    split at he
    · cases he
    · obtain ⟨arg, -, he⟩ := List.mem_flatMap.mp he
      rw [passing] at he
      split at he
      · cases List.mem_singleton.mp he
        exact taking_spends c arg.1
      · cases List.mem_singleton.mp he
        trivial
      · cases he
  | copy _ source | borrow source _ _ | use source =>
    cases List.mem_singleton.mp he
    trivial
  | _ => cases he

/-- What an operation does not define is only spent from. -/
theorem trace_spends (hx : op.defined? ≠ some x) : ∀ a ∈ (k.trace c op).on x, a.Spends := by
  intro a ha
  rcases List.mem_append.mp (Trace.mem_on.mp ha) with hmem | hmem
  · exact operandTrace_spends _ hmem
  · have hgiven : (x, a) ∉ op.assigned?.toList.map fun x => (x, .give) := by
      intro hmem
      obtain ⟨y, hy, heq⟩ := List.mem_map.mp hmem
      cases heq
      exact hx (Op.defined?_of_assigned? (Option.mem_toList.mp hy))
    cases op with
    | declare y | borrow _ _ y =>
      cases List.mem_singleton.mp hmem
      exact absurd rfl hx
    | endScope scope =>
      obtain ⟨y, -, heq⟩ := List.mem_map.mp hmem
      cases heq
      trivial
    | _ => exact absurd hmem hgiven

/-- The operation gives the binding a fresh value: it declares it, lends something to it, or gives
it a value and is not refused. -/
def Renews (k : Checker) (c : Site) (s : FlowState) (op : Op) (x : String) : Prop :=
  op = .declare x ∨ (∃ y kind, op = .borrow y kind x) ∨
    (op.assigned? = some x ∧ ∃ ws u w, k.Prepares c s ws u op ∧ (c.store x).run u = .ok none w)

theorem Prepares.unique {ws : List Violation} (h : k.Prepares c s vs t op)
    (h' : k.Prepares c s ws u op) : t = u := by
  cases op with
  | init y source =>
    cases source with
    | none => exact h.2.trans h'.2.symm
    | some source =>
      obtain ⟨taken, hmove, -⟩ := h
      obtain ⟨taken', hmove', -⟩ := h'
      cases hmove.symm.trans hmove'
      rfl
  | move dest source =>
    obtain ⟨taken, hmove, -⟩ := h
    obtain ⟨taken', hmove', -⟩ := h'
    cases hmove.symm.trans hmove'
    rfl
  | copy dest source =>
    obtain ⟨-, -, -, rfl⟩ := h
    obtain ⟨-, -, -, rfl⟩ := h'
    rfl
  | call call =>
    obtain ⟨sig, passed, w, hsig, hpass, -, rfl⟩ := h
    obtain ⟨sig', passed', w', hsig', hpass', -, rfl⟩ := h'
    cases hsig.symm.trans hsig'
    cases hpass.symm.trans hpass'
    rfl
  | _ => exact h.elim

theorem refreshed?_eq_some : refreshed? op t = some x ↔
    op.defined? = some x ∧ t.stateOf x ≠ .moved ∧ t.stateOf x ≠ .dropped := by
  simp [refreshed?, Option.filter_eq_some_iff]

/-- What gets a fresh value is seen to have one. -/
theorem Renews.refreshed (h : k.Renews c s op x) (hrun : (k.applyOp c op).run s = .ok vs t) :
    refreshed? op t = some x := by
  have hfollows := (applyOp_follows hrun).state x
  rcases h with rfl | ⟨y, kind, rfl⟩ | ⟨hassigned, ws, u, w, hprep, hgive⟩
  · have hstate : t.stateOf x = .uninitialized := by
      change _ = Touch.run (Trace.on [(x, .declare)] x) _ at hfollows
      rw [hfollows, Trace.on_singleton, if_pos rfl]
      rfl
    exact refreshed?_eq_some.mpr ⟨rfl, by rw [hstate]; decide, by rw [hstate]; decide⟩
  · have hstate : t.stateOf x = .owned := by
      change _ = Touch.run (Trace.on ([(y, .use)] ++ [(x, .define)]) x) _ at hfollows
      rw [hfollows, Trace.on_append, Touch.run_append, Trace.on_singleton x, if_pos rfl]
      rfl
    exact refreshed?_eq_some.mpr ⟨rfl, by rw [hstate]; decide, by rw [hstate]; decide⟩
  · obtain ⟨ws', u', refused, w', hprep', hgive', -, hsame⟩ := assigned_inv hassigned hrun
    cases hprep.unique hprep'
    cases hgive.symm.trans hgive'
    have hstate : t.stateOf x = .owned := by rw [hsame, Site.store_stateOf hgive, if_pos rfl]
    exact refreshed?_eq_some.mpr
      ⟨Op.defined?_of_assigned? hassigned, by rw [hstate]; decide, by rw [hstate]; decide⟩

def Spoiled (s : FlowState) (vs : List Violation) (x : String) : Prop :=
  s.stateOf x ≠ .owned ∨ Violation.complaints vs x ≠ []

/-- What is seen to have a value without having got one had it before: its overwrite was refused. -/
theorem renews_of_refreshed (hrun : (k.applyOp c op).run s = .ok vs t)
    (hx : refreshed? op t = some x) (hspoiled : Spoiled s vs x) : k.Renews c s op x := by
  obtain ⟨hdefined, -, hdropped⟩ := refreshed?_eq_some.mp hx
  rcases Op.defined?_cases hdefined with hdeclare | hborrow | hassigned
  · exact Or.inl hdeclare
  · exact Or.inr (Or.inl hborrow)
  · obtain ⟨ws, u, refused, w, hprep, hgive, rfl, hstate⟩ := assigned_inv hassigned hrun
    cases refused with
    | none => exact Or.inr (Or.inr ⟨hassigned, ws, u, w, hprep, hgive⟩)
    | some v =>
      exfalso
      rw [hstate] at hdropped
      obtain ⟨rfl, ⟨hstate, -⟩ | ⟨howned, -⟩⟩ := Site.store_some_inv hgive
      · exact hdropped hstate
      · have hprepared := prepares_follows hprep
        have hbefore :=
          Touch.owned_of_spends (fun a ha => operandTrace_spends _ (Trace.mem_on.mp ha))
            ((hprepared.state x).symm.trans howned)
        have hcomplaints := (hprepared.append (Site.store_follows hgive)).complaints x
        rw [Trace.on_append, Touch.faults_append, ← hprepared.state, howned, hbefore.2,
          Trace.on_singleton, if_pos rfl] at hcomplaints
        exact hspoiled.elim (fun hne => hne hbefore.1) (fun hne => hne hcomplaints)

/-- What is complained about and not refreshed has no value behind the operation. -/
theorem ne_owned_of_not_refreshed (hrun : (k.applyOp c op).run s = .ok vs t)
    (hx : refreshed? op t ≠ some x) (hspoiled : Spoiled s vs x) : t.stateOf x ≠ .owned := by
  intro howned
  by_cases hdefined : op.defined? = some x
  · exact hx (refreshed?_eq_some.mpr ⟨hdefined, by rw [howned]; decide, by rw [howned]; decide⟩)
  · have hfollows := applyOp_follows hrun
    have hbefore :=
      Touch.owned_of_spends (trace_spends hdefined) ((hfollows.state x).symm.trans howned)
    exact hspoiled.elim (fun hne => hne hbefore.1)
      (fun hne => hne ((hfollows.complaints x).trans hbefore.2))

/-- For a binding that is complained about, what an operation is seen to do is what it does. -/
theorem applyInstruction_renews (he : (k.applyInstruction r c i).run s = .ok e t)
    (hspoiled : Spoiled s e.violations x) :
    (e.refreshed = some x ↔ k.Renews c s i.op x) ∧
    (e.refreshed ≠ some x → t.stateOf x ≠ .owned) := by
  obtain ⟨vs, u, hop, rfl, rfl⟩ := applyInstruction_iff.mp he
  refine ⟨⟨fun hx => renews_of_refreshed hop hx hspoiled, fun hx => hx.refreshed hop⟩, fun hx => ?_⟩
  exact ne_owned_of_not_refreshed (t := u) hop hx hspoiled

theorem spoiled_of_blames {y : Finding} (hy : y ∈ e.findings) (hx : y.Blames x) :
    Spoiled s e.violations x := by
  obtain ⟨v, hv, rfl⟩ := List.mem_map.mp hy
  exact Or.inr (List.ne_nil_of_mem (Violation.mem_complaints.mpr ⟨v, hv, hx.1, hx.2, rfl⟩))

/-- A binding is stained before an operation, where it has no value then, or in it. -/
theorem spoiled_of_stained {renewed : Int → String → Prop} {found : List Finding} {blamed : Names}
    (hblamed : Finding.Marks renewed found n blamed) (hstate : ∀ y ∈ blamed, s.stateOf y ≠ .owned)
    (hx : Finding.Stained renewed (found ++ e.findings) n x) : Spoiled s e.violations x := by
  rcases Finding.stained_append.mp hx with hx | ⟨y, hy, hblames, -⟩
  · exact Or.inl (hstate x ((hblamed x).mpr hx))
  · exact spoiled_of_blames hy hblames

def RenewedAt (k : Checker) (f : Function) (r : Regions) (b : Block) (s : FlowState) (m : Int)
    (x : String) : Prop :=
  ∃ before i rest es t, b.body = before ++ i :: rest ∧ m = before.length ∧
    (k.applyOps f r b 0 before).run s = .ok es t ∧ k.Renews (k.site f r b m i.span) t i.op x

theorem renewedAt_iff {before rest : List Instruction} (hbody : b.body = before ++ i :: rest)
    (hbefore : (k.applyOps f r b 0 before).run s₀ = .ok es₀ s) :
    k.RenewedAt f r b s₀ before.length x ↔
      k.Renews (k.site f r b before.length i.span) s i.op x := by
  constructor
  · rintro ⟨before', i', rest', es', t, hbody', hlength, hbefore', hrenews⟩
    obtain ⟨rfl, hrest⟩ := List.append_inj (hbody.symm.trans hbody') (Int.ofNat.inj hlength)
    cases hrest
    cases hbefore.symm.trans hbefore'
    exact hrenews
  · exact fun hrenews => ⟨before, i, rest, es₀, s, hbody, rfl, hbefore, hrenews⟩

/-- One more operation is run behind the others. -/
theorem applyOps_concat {before : List Instruction}
    (hbefore : (k.applyOps f r b n before).run s₀ = .ok es₀ s)
    (he : (k.applyInstruction r (k.site f r b (n + before.length) i.span) i).run s = .ok e t) :
    (k.applyOps f r b n (before ++ [i])).run s₀ = .ok (es₀ ++ [e]) t := by
  induction before generalizing n s₀ es₀ with
  | nil =>
    obtain ⟨rfl, rfl⟩ := applyOps_nil_iff.mp hbefore
    rw [List.length_nil, Int.natCast_zero, Int.add_zero] at he
    exact applyOps_cons_iff.mpr ⟨e, t, [], he, applyOps_nil_iff.mpr ⟨rfl, rfl⟩, rfl⟩
  | cons j before ih =>
    obtain ⟨e', u, es', he', hrest, rfl⟩ := applyOps_cons_iff.mp hbefore
    rw [index_cons] at he
    exact applyOps_cons_iff.mpr ⟨e', u, es' ++ [e], he', ih hrest he, rfl⟩

theorem applyOps_index {before : List Instruction}
    (hbefore : (k.applyOps f r b n before).run s₀ = .ok es₀ s) :
    ∀ e ∈ es₀, e.location.index < n + before.length := by
  induction before generalizing n s₀ es₀ with
  | nil =>
    obtain ⟨rfl, rfl⟩ := applyOps_nil_iff.mp hbefore
    simp
  | cons i before ih =>
    obtain ⟨e, u, es, he, hrest, rfl⟩ := applyOps_cons_iff.mp hbefore
    refine List.forall_mem_cons.mpr ⟨?_, fun e' he' => ?_⟩
    · rw [(applyInstruction_follows he).2, index_cons]
      change n < n + 1 + before.length
      omega
    · rw [index_cons]
      exact ih hrest e' he'

theorem findings_index {before : List Instruction}
    (hbefore : (k.applyOps f r b 0 before).run s₀ = .ok es₀ s) :
    ∀ y ∈ es₀.flatMap Event.findings, y.location.index < before.length := by
  intro y hy
  obtain ⟨e, he, hy⟩ := List.mem_flatMap.mp hy
  obtain ⟨v, -, rfl⟩ := List.mem_map.mp hy
  have hindex := applyOps_index hbefore e he
  rwa [Int.zero_add] at hindex

open Finding in
/-- The rest of a block reports what does not follow from anything found before. What carries the
induction is that the blamed bindings are the stained ones, and that none of them has a value. -/
theorem reports_applyFrom {before rest : List Instruction} {kept : List Finding} {blamed : Names}
    (hbody : b.body = before ++ rest) (hbefore : (k.applyOps f r b 0 before).run s₀ = .ok es₀ s)
    (hrun : (k.applyFrom f r b before.length rest).run s = .ok es t)
    (h : Reports (k.RenewedAt f r b s₀) (es₀.flatMap Event.findings) kept)
    (hblamed : Marks (k.RenewedAt f r b s₀) (es₀.flatMap Event.findings) before.length blamed)
    (hstate : ∀ x ∈ blamed, s.stateOf x ≠ .owned) :
    ∃ kept', Reports (k.RenewedAt f r b s₀) ((es₀ ++ es).flatMap Event.findings) (kept ++ kept') ∧
      Event.diagnostics es blamed = kept'.map Finding.diagnostic := by
  induction rest generalizing before s es₀ kept blamed es with
  | nil =>
    obtain ⟨e, he, rfl⟩ := applyFrom_nil_iff.mp hrun
    obtain ⟨vs, u, -, rfl, rfl⟩ := applyEnding_iff.mp he
    obtain ⟨hreports, -⟩ := reports_fresh vs ⟨f.name, b.label, before.length⟩ b.endingSpan h hblamed
    refine ⟨(Event.fresh vs blamed).1.map fun v =>
      ⟨v, ⟨f.name, b.label, before.length⟩, b.endingSpan⟩, ?_, ?_⟩
    · rw [List.flatMap_append, List.flatMap_singleton]
      exact hreports
    · rw [Event.diagnostics, List.map_map]
      exact List.append_nil _
  | cons i rest ih =>
    obtain ⟨e, u, es', he, hrest, rfl⟩ := applyFrom_cons_iff.mp hrun
    have hconcat := applyOps_concat hbefore (by rwa [Int.zero_add])
    have hindex : e.location.index = before.length := by rw [(applyInstruction_follows he).2]; rfl
    have hspoiled := fun x => spoiled_of_stained (e := e) (x := x) hblamed hstate
    rw [← hindex] at hblamed
    obtain ⟨kept₁, blamed', hreports, hmarks, hleft, hds⟩ :=
      reports_event es' h hblamed (hindex ▸ findings_index hbefore)
        fun x hx => by
          rw [hindex] at hx ⊢
          rw [renewedAt_iff hbody hbefore]
          exact (applyInstruction_renews he (hspoiled x hx)).1
    have hlength : ((before ++ [i]).length : Int) = before.length + 1 := by simp
    have hfound : (es₀ ++ [e]).flatMap Event.findings =
        es₀.flatMap Event.findings ++ e.findings := by
      rw [List.flatMap_append, List.flatMap_singleton]
    obtain ⟨kept₂, hreports₂, hds₂⟩ :=
      ih (by rw [hbody, List.append_assoc]; rfl) hconcat (hlength ▸ hrest)
        (hfound ▸ hreports) (by rw [hlength, hfound, ← hindex]; exact hmarks) fun x hx =>
          (applyInstruction_renews he (hspoiled x (hindex ▸ (hleft x hx).1))).2 (hleft x hx).2
    refine ⟨kept₁ ++ kept₂, ?_, ?_⟩
    · rw [← List.append_assoc, List.append_cons es₀]
      exact hreports₂
    · rw [hds, hds₂, List.map_append]

/-- What is reported of a block: what its operations and its terminator find from the state that the
analysis has come to, but for what follows from an earlier finding of the block. -/
def BlockReport (k : Checker) (f : Function) (r : Regions) (a : Analysis) (l : String)
    (ds : List Diagnostic) : Prop :=
  ∃ b s t es kept, f.blocks.get? l = some b ∧ a.inStates[l]? = some s ∧
    k.transferBlock f r l s = .ok (t, es) ∧
    Finding.Reports (k.RenewedAt f r b s) (es.flatMap Event.findings) kept ∧
    ds = kept.map Finding.diagnostic

theorem reports_transferBlock {l : String} (hrun : k.transferBlock f r l s = .ok (t, es)) :
    ∃ b kept, f.blocks.get? l = some b ∧
      Finding.Reports (k.RenewedAt f r b s) (es.flatMap Event.findings) kept ∧
      Event.diagnostics es ∅ = kept.map Finding.diagnostic := by
  obtain ⟨b, hb, hrun⟩ := transferBlock_iff.mp hrun
  have hmarks : Finding.Marks (k.RenewedAt f r b s) [] 0 ∅ := fun name =>
    ⟨fun hmem => absurd hmem ExtTreeSet.not_mem_empty, fun ⟨y, hy, _⟩ => absurd hy List.not_mem_nil⟩
  obtain ⟨kept, hreports, hds⟩ :=
    reports_applyFrom (List.nil_append _).symm (applyOps_nil_iff.mpr ⟨rfl, rfl⟩) hrun .nil
      hmarks fun x hx => absurd hx ExtTreeSet.not_mem_empty
  exact ⟨b, kept, hb, hreports, hds⟩

/-- Of what is found in a block exactly the complaints are left out that follow from an earlier one.
The diagnostics of a function are those of its reachable blocks, one block after the other; for each
block they are what its operations and its terminator find from the state of the analysis, in the
order in which it is found, without the complaints about a binding that was complained about before
in the block and got no fresh value since. Where the types are there with all they are made of,
there is a report. -/
theorem cascades_left_out (hf : WellFormed.checkFunction f k.types (k.signaturesFor f) = .ok ())
    (hr : Regions.compute f k.types k.policy = .ok r) :
    (k.TypesGrounded f → ∃ visits n ds, k.checkFunction f = .ok ⟨f.name, .analysed visits n ds⟩) ∧
    ∀ visits n ds, k.checkFunction f = .ok ⟨f.name, .analysed visits n ds⟩ → ∃ a blocks,
      k.analyze f = .ok a ∧ a.Solves k f r ∧ a.order.Nodup ∧ (∀ l, l ∈ a.order ↔ f.Reachable l) ∧
      List.Forall₂ (k.BlockReport f r a) a.order blocks ∧ ds = blocks.flatten := by
  have hfits := WellFormed.checkFunction_inv hf
  refine ⟨fun ht => ?_, fun visits n ds hreport => ?_⟩
  · obtain ⟨a, ds, -, -, hreport⟩ := exists_report hf hr ht
    exact ⟨_, _, ds, hreport⟩
  · rcases checkFunction_inv hreport with ⟨problem, hmalformed⟩ | ⟨a, ds', ha, hd, heq⟩
    · cases hmalformed
    · cases heq
      have hsolves := analyze_solves hf hr ha
      obtain ⟨entry, rest, horder, -, hnodup, hmem⟩ := Function.reversePostorder_spec hfits
      have heq : a.order = entry :: rest := Except.ok.inj (hsolves.order.symm.trans horder)
      obtain ⟨blocks, hblocks, hd⟩ := Except.bind_inv hd
      cases hd
      refine ⟨a, blocks, ha, hsolves, heq ▸ hnodup, fun l => heq ▸ hmem l, ?_, rfl⟩
      refine (Except.forall₂_of_mapM hblocks).imp fun l ds hrun => ?_
      obtain ⟨es, hes, hrun⟩ := Except.bind_inv hrun
      cases hrun
      obtain ⟨s, t, hs, ht⟩ := (eventsOf_iff hsolves).mp hes
      obtain ⟨b, kept, hb, hreports, hds⟩ := reports_transferBlock ht
      exact ⟨b, s, t, es, kept, hb, hs, ht, hreports, hds⟩

end Checker

/-- A value that is moved out is used twice and moved onto itself. That gives its binding a fresh
value, which is moved out and used again. -/
def Function.retaken : Function :=
  ofParts "retaken" [{ name := "x", type := 3, mutable := true },
    { name := "y", type := 3, mutable := true }]
    [{ label := "entry",
       body := [{ op := .init "x" none }, { op := .move "y" "x" }, { op := .use "x" },
         { op := .use "x" },
         { op := .move "x" "x" }, { op := .move "y" "x" }, { op := .use "x" }],
       ending := some { terminator := .ret none } }]

namespace Checker

/-- Of the four complaints about the value the first is reported and the last, before which it was
fresh. -/
theorem cascades_left_out_retaken :
    ∃ (r : Regions) (a : Analysis) (visits n : Nat) (ds : List Diagnostic),
    WellFormed.checkFunction .retaken basic.types (basic.signaturesFor .retaken) = .ok () ∧
    Regions.compute .retaken .basic .lastUse = .ok r ∧ basic.analyze .retaken = .ok a ∧
    basic.checkFunction .retaken = .ok ⟨"retaken", .analysed visits n ds⟩ ∧
    basic.BlockReport .retaken r a "entry" ds ∧
    ds.map (fun d => d.location.map Location.index) = [some 2, some 6] := by
  have hf : WellFormed.checkFunction .retaken basic.types (basic.signaturesFor .retaken) =
      .ok () := by decide
  have hrun : (do
      let r ← Regions.compute .retaken .basic .lastUse
      let a ← basic.analyze .retaken
      let report ← basic.checkFunction .retaken
      return (a.order = ["entry"] ∧
        report.diagnostics.map (fun d => d.location.map Location.index) = [some 2, some 6] : Bool) :
          Except Fault Bool) = .ok true := by decide +kernel
  obtain ⟨r, hr, hrun⟩ := Except.bind_inv hrun
  obtain ⟨a, ha, hrun⟩ := Except.bind_inv hrun
  obtain ⟨report, hreport, hrun⟩ := Except.bind_inv hrun
  obtain ⟨horder, hindices⟩ := of_decide_eq_true (Except.ok.inj hrun)
  obtain ⟨htotal, hall⟩ := cascades_left_out hf hr
  obtain ⟨visits, n, ds, hreport'⟩ := htotal (typesGrounded_basic (by decide) ⟨rfl, rfl⟩)
  cases hreport.symm.trans hreport'
  obtain ⟨a', blocks, ha', -, -, -, hblocks, rfl⟩ := hall visits n ds hreport
  cases ha.symm.trans ha'
  rw [horder] at hblocks
  obtain ⟨ds, rest, hentry, hrest, rfl⟩ := List.forall₂_cons_left_iff.mp hblocks
  cases hrest
  rw [List.flatten_singleton] at hreport hindices
  exact ⟨r, a, visits, n, ds, hf, hr, ha, hreport, hentry, hindices⟩

end Checker

end Ownership

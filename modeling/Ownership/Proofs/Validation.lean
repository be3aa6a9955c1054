import Ownership.Proofs.Report
import Ownership.Proofs.Types
import Ownership.Verify

/-! # How the check of a function can end

A function passes, or it has a defect, or its scopes lead out of their table before a defect is
found. Where it passes, all scopes are below the root. Only a scope that strays can keep a function
from being reported on; a defect is the one diagnostic of its function, and the next function is
checked.
-/
namespace Ownership

namespace Except
variable {α β : Type} {x : Except Fault α} {e : Fault}

theorem bind_eq_error {g : α → Except Fault β} :
    (x >>= g) = .error e ↔ x = .error e ∨ ∃ a, x = .ok a ∧ g a = .error e := by
  cases x with
  | ok a =>
    constructor
    · exact fun h => Or.inr ⟨a, rfl, h⟩
    · rintro (h | ⟨_, ⟨⟩, h⟩)
      · cases h
      · exact h
  | error e' =>
    constructor
    · intro h
      cases h
      exact Or.inl rfl
    · rintro (h | ⟨_, h, -⟩)
      · cases h
        rfl
      · cases h

/-- A list fails as the first element that does. -/
theorem forM_eq_error {g : α → Except Fault Unit} {l : List α} : l.forM g = .error e ↔
    ∃ before a after, l = before ++ a :: after ∧ (∀ b ∈ before, g b = .ok ()) ∧ g a = .error e := by
  induction l with
  | nil =>
    refine ⟨nofun, ?_⟩
    rintro ⟨before, a, after, h, -⟩
    simp at h
  | cons a l ih =>
    change (g a >>= fun _ => l.forM g) = .error e ↔ _
    rw [bind_eq_error, ih]
    constructor
    · rintro (h | ⟨_, ha, before, b, after, rfl, hbefore, hb⟩)
      · exact ⟨[], a, l, rfl, nofun, h⟩
      · exact ⟨a :: before, b, after, rfl, List.forall_mem_cons.mpr ⟨ha, hbefore⟩, hb⟩
    · rintro ⟨before, b, after, hl, hbefore, hb⟩
      cases before with
      | nil =>
        obtain ⟨rfl, rfl⟩ := List.cons.inj hl
        exact Or.inl hb
      | cons c before =>
        obtain ⟨rfl, rfl⟩ := List.cons.inj hl
        obtain ⟨ha, hbefore⟩ := List.forall_mem_cons.mp hbefore
        exact Or.inr ⟨(), ha, before, b, after, rfl, hbefore, hb⟩

end Except

def Tells {α : Type} (x : Except Fault α) : Prop :=
  ∀ e, x = .error e → ∃ problem, e = .malformed problem

namespace Tells
variable {α β : Type}

theorem ok (a : α) : Tells (.ok a) := by
  intro e h
  cases h

theorem malformed (problem : Malformed) : Tells (.error (.malformed problem) : Except Fault α) := by
  rintro _ ⟨⟩
  exact ⟨problem, rfl⟩

theorem bind {x : Except Fault α} {g : α → Except Fault β} (hx : Tells x) (hg : ∀ a, Tells (g a)) :
    Tells (x >>= g) := by
  intro e h
  rcases Except.bind_eq_error.mp h with h | ⟨a, -, h⟩
  · exact hx e h
  · exact hg a e h

theorem forM {g : α → Except Fault Unit} {l : List α} (h : ∀ a ∈ l, Tells (g a)) :
    Tells (l.forM g) := by
  intro e he
  obtain ⟨before, a, after, rfl, -, ha⟩ := Except.forM_eq_error.mp he
  exact h a (by simp) e ha

theorem ensure (condition : Bool) (problem : Malformed) :
    Tells (WellFormed.ensure condition problem) := by
  cases condition with
  | true => exact ok ()
  | false => exact malformed problem

end Tells

namespace Function

inductive Above (f : Function) : Nat → String → String → Prop
  | here (s : String) : Above f 0 s s
  | up {n : Nat} {s p t : String} {scope : Scope} (hs : f.scopes.get? s = some scope)
      (hp : scope.parent = some p) (h : Above f n p t) : Above f (n + 1) s t

def BelowRoot (f : Function) (s : String) : Prop :=
  ∃ n root, f.Above n s rootScope ∧ f.scopes.get? rootScope = some root ∧ root.parent = none

/-- The parent of the scope is there, but further up the scopes lead out of their table, to the
second name. A way out through all scopes of the table does not count: it is taken for a cycle. -/
def Strays (f : Function) (s t : String) : Prop :=
  ∃ n, 2 ≤ n ∧ n < f.scopes.size ∧ f.Above n s t ∧ f.scopes.get? t = none

structure NamesTypes (f : Function) (types : TypeTable) : Prop where
  params : ∀ p ∈ f.signature.params, types.Defines p.type
  returns : ∀ id ∈ f.signature.returns, types.Defines id
  bindings : ∀ b ∈ f.bindings.entries, types.Defines b.type

theorem NamesTypes.of_no_names {f : Function} {types : TypeTable} (hp : f.signature.params = [])
    (hr : f.signature.returns = none) (hb : f.bindings.entries = []) : f.NamesTypes types :=
  ⟨by simp [hp], by simp [hr], by simp [hb]⟩

end Function

namespace WellFormed
variable {f : Function} {types : TypeTable} {signatures : Registry Signature} {location : Location}
    {span : Span}

section Climb
variable {start s t : String} {n : Nat}

/-- A climb ends at a scope without parent, leaves the table, or uses up its steps. -/
theorem climb_cases (f : Function) (start : String) (n : Nat) (s : String) :
    (climb f start n s = .ok () ∧ ∃ i t scope, f.Above i s t ∧ f.scopes.get? t = some scope ∧
      scope.parent = none) ∨
    (∃ i t, climb f start n s = .error (.missing (.name t)) ∧ i < n ∧ f.Above i s t ∧
      f.scopes.get? t = none) ∨
    climb f start n s = .error (.malformed { defect := .cyclicScope start }) := by
  induction n generalizing s with
  | zero => exact Or.inr (Or.inr rfl)
  | succ n ih =>
    cases hs : f.scopes.get? s with
    | none => exact Or.inr (Or.inl ⟨0, s, by simp only [climb, hs], Nat.succ_pos n, .here s, hs⟩)
    | some scope =>
      cases hp : scope.parent with
      | none => exact Or.inl ⟨by simp only [climb, hs, hp], 0, s, scope, .here s, hs, hp⟩
      | some p =>
        have hstep : climb f start (n + 1) s = climb f start n p := by simp only [climb, hs, hp]
        rw [hstep]
        rcases ih p with ⟨h, i, t, top, hup, htop⟩ | ⟨i, t, h, hi, hup, ht⟩ | h
        · exact Or.inl ⟨h, i + 1, t, top, .up hs hp hup, htop⟩
        · exact Or.inr (Or.inl ⟨i + 1, t, h, Nat.succ_lt_succ hi, .up hs hp hup, ht⟩)
        · exact Or.inr (Or.inr h)

theorem climb_of_above {i : Nat} (h : f.Above i s t) (ht : f.scopes.get? t = none) (hi : i < n) :
    climb f start n s = .error (.missing (.name t)) := by
  induction h generalizing n with
  | here s =>
    obtain ⟨m, rfl⟩ := Nat.exists_eq_add_one.mpr hi
    simp only [climb, ht]
  | up hs hp _ ih =>
    obtain ⟨m, rfl⟩ := Nat.exists_eq_add_one.mpr (Nat.zero_lt_of_lt hi)
    simp only [climb, hs, hp]
    exact ih ht (Nat.lt_of_succ_lt_succ hi)

end Climb

section Scopes
variable {scope : Scope} (hscope : scope ∈ f.scopes.entries)
include hscope

theorem parent_of_strays {t : String} (h : f.Strays scope.id t) :
    ∃ p, scope.parent = some p ∧ f.scopes.contains p = true := by
  have hself : f.scopes.get? scope.id = some scope := Registry.get?_eq_some_of_mem hscope
  obtain ⟨n, hn, -, hup, -⟩ := h
  cases hup with
  | here => omega
  | up hs hp hup =>
    cases hself.symm.trans hs
    refine ⟨_, hp, ?_⟩
    cases hup with
    | here => omega
    | up hs _ _ => exact Registry.contains_iff_get?.mpr ⟨_, hs⟩

/-- The way out of the table leads through the parent of the scope. -/
theorem strays_of_above {n : Nat} {p t : String} (hparent : scope.parent = some p)
    (hp : f.scopes.contains p = true) (hup : f.Above n scope.id t) (ht : f.scopes.get? t = none)
    (hn : n < f.scopes.size) : f.Strays scope.id t := by
  have hself : f.scopes.get? scope.id = some scope := Registry.get?_eq_some_of_mem hscope
  obtain ⟨above, hp⟩ := Registry.contains_iff_get?.mp hp
  refine ⟨n, ?_, hn, hup, ht⟩
  cases hup with
  | here => cases hself.symm.trans ht
  | up hs hparent' hup =>
    cases hself.symm.trans hs
    cases hparent.symm.trans hparent'
    cases hup with
    | here => cases hp.symm.trans ht
    | up => omega

/-- A scope passes, strays or has a defect. -/
theorem checkScope_cases :
    (checkScope f scope = .ok () ∧ (scope.parent = none → scope.id = rootScope) ∧
      ∃ n t top, f.Above n scope.id t ∧ f.scopes.get? t = some top ∧ top.parent = none) ∨
    (∃ t, checkScope f scope = .error (.missing (.name t)) ∧ f.Strays scope.id t) ∨
    ∃ problem, checkScope f scope = .error (.malformed problem) := by
  have hself : f.scopes.get? scope.id = some scope := Registry.get?_eq_some_of_mem hscope
  cases hparent : scope.parent with
  | none =>
    simp only [checkScope, hparent]
    by_cases hid : scope.id = rootScope
    · exact Or.inl ⟨ensure_eq_ok.mpr (by simp [hid]), fun _ => hid, 0, scope.id, scope, .here _,
        hself, hparent⟩
    · exact Or.inr (Or.inr ⟨_, by simp only [ensure, beq_iff_eq, hid, ↓reduceIte]; rfl⟩)
  | some p =>
    simp only [checkScope, hparent]
    cases hp : f.scopes.contains p with
    | false => exact Or.inr (Or.inr ⟨_, rfl⟩)
    | true =>
      rw [Except.bind_of_ok (ensure_eq_ok.mpr rfl)]
      rcases climb_cases f scope.id f.scopes.size scope.id
        with ⟨h, htop⟩ | ⟨n, t, h, hn, hup, ht⟩ | h
      · exact Or.inl ⟨h, fun hnone => absurd hnone (Option.some_ne_none p), htop⟩
      · exact Or.inr (Or.inl ⟨t, h, strays_of_above hscope hparent hp hup ht hn⟩)
      · exact Or.inr (Or.inr ⟨_, h⟩)

theorem checkScope_of_strays {t : String} (h : f.Strays scope.id t) :
    checkScope f scope = .error (.missing (.name t)) := by
  obtain ⟨p, hparent, hp⟩ := parent_of_strays hscope h
  obtain ⟨n, -, hn, hup, ht⟩ := h
  simp only [checkScope, hparent]
  exact (Except.bind_of_ok (ensure_eq_ok.mpr hp)).trans (climb_of_above hup ht hn)

end Scopes

/-- Where all scopes pass, all are below the root: the scope at the top passes too. -/
theorem belowRoot_of_checkScope (h : ∀ scope ∈ f.scopes.entries, checkScope f scope = .ok ())
    {scope : Scope} (hscope : scope ∈ f.scopes.entries) : f.BelowRoot scope.id := by
  rcases checkScope_cases hscope with ⟨-, -, n, t, top, hup, ht, htop⟩ | ⟨_, hfail, -⟩ | ⟨_, hfail⟩
  · have hmem := Registry.mem_of_get?_eq_some ht
    have hid : top.id = t := Registry.name_of_get?_eq_some ht
    rcases checkScope_cases hmem with ⟨-, hroot, -⟩ | ⟨_, hfail, -⟩ | ⟨_, hfail⟩
    · rw [← hid, hroot htop] at hup ht
      exact ⟨n, top, hup, ht, htop⟩
    · cases (h top hmem).symm.trans hfail
    · cases (h top hmem).symm.trans hfail
  · cases (h scope hscope).symm.trans hfail
  · cases (h scope hscope).symm.trans hfail

section Tells

theorem lifetimeOf_tells {id : TypeId} (h : types.Defines id) : Tells (lifetimeOf types id) := by
  obtain ⟨d, hd⟩ := h
  rw [lifetimeOf, hd]
  exact .ok _

theorem checkParams_tells {s : Signature} {ps : List Param} {seen : List String}
    (h : ∀ p ∈ ps, types.Defines p.type) : Tells (checkParams types s ps seen) := by
  induction ps generalizing seen with
  | nil => exact .ok _
  | cons p ps ih =>
    obtain ⟨hp, hps⟩ := List.forall_mem_cons.mp h
    refine .bind (.ensure _ _) fun _ => .bind (lifetimeOf_tells hp) fun lt => ?_
    cases lt with
    | none => exact ih hps
    | some lt => exact .bind (.ensure _ _) fun _ => .bind (ih hps) fun _ => .ok _

theorem checkSignature_tells {s : Signature} (hp : ∀ p ∈ s.params, types.Defines p.type)
    (hr : ∀ id ∈ s.returns, types.Defines id) : Tells (checkSignature types s) := by
  refine .bind (.forM fun _ _ => .forM fun _ _ => .ensure _ _) fun _ =>
    .bind (checkParams_tells hp) fun lts => ?_
  cases h : s.returns with
  | none => exact .ok _
  | some id =>
    refine .bind (lifetimeOf_tells (hr id (Option.mem_def.mpr h))) fun lt => ?_
    cases lt with
    | none => exact .ok _
    | some lt => exact .ensure _ _

theorem checkEntry_tells : Tells (checkEntry f) := by
  unfold checkEntry
  split
  · exact .malformed _
  · exact .bind (.ensure _ _) fun _ => .ensure _ _

theorem checkCall_tells {c : Call} : Tells (checkCall f signatures location span c) := by
  unfold checkCall
  split
  · exact .malformed _
  · exact .bind (.ensure _ _) fun _ => .bind (.forM fun _ _ => .ensure _ _) fun _ =>
      .bind (.forM fun _ _ => .ensure _ _) fun _ => .forM fun _ _ => .bind (.ensure _ _) fun _ =>
        .forM fun _ _ => .ensure _ _

theorem checkOp_tells (hb : ∀ b ∈ f.bindings.entries, types.Defines b.type) {op : Op} :
    Tells (checkOp f types signatures location span op) := by
  cases op with
  | declare x => exact .ensure _ _
  | init x source => exact .bind (.ensure _ _) fun _ => .forM fun _ _ => .ensure _ _
  | move dest source => exact .bind (.ensure _ _) fun _ => .ensure _ _
  | copy dest source => exact .bind (.ensure _ _) fun _ => .ensure _ _
  | borrow x kind ref =>
    refine .bind (.ensure _ _) fun _ => ?_
    split
    · exact .malformed _
    · rename_i b hget
      obtain ⟨d, hd⟩ := hb b (Registry.mem_of_get?_eq_some hget)
      rw [hd]
      exact .ensure _ _
  | use x => exact .ensure _ _
  | write target value => exact .bind (.ensure _ _) fun _ => .forM fun _ _ => .ensure _ _
  | call c => exact checkCall_tells
  | endScope scope => exact .ensure _ _
  | unsupported name => exact .malformed _

theorem checkBody_tells (hb : ∀ b ∈ f.bindings.entries, types.Defines b.type)
    {label : String} {n : Int} {body : List Instruction} :
    Tells (checkBody f types signatures label n body) := by
  induction body generalizing n with
  | nil => exact .ok _
  | cons i rest ih => exact .bind (checkOp_tells hb) fun _ => ih

theorem checkEnding_tells {label : String} {ending : Option Ending} :
    Tells (checkEnding f label location ending) := by
  unfold checkEnding
  split
  · exact .malformed _
  · exact .malformed _
  · exact .bind (.forM fun _ _ => .ensure _ _) fun _ => .forM fun _ _ => .ensure _ _

end Tells

end WellFormed

namespace Function

def StraysFirst (f : Function) (t : String) : Prop :=
  ∃ before scope after, f.scopes.entries = before ++ scope :: after ∧
    (∀ b ∈ before, WellFormed.checkScope f b = .ok ()) ∧ f.Strays scope.id t

end Function

namespace WellFormed
variable {f : Function} {types : TypeTable} {signatures : Registry Signature}

theorem checkScopes_inv {e : Fault} (h : f.scopes.entries.forM (checkScope f) = .error e) :
    (∃ t, e = .missing (.name t) ∧ f.StraysFirst t) ∨ ∃ problem, e = .malformed problem := by
  obtain ⟨before, scope, after, hl, hbefore, hfail⟩ := Except.forM_eq_error.mp h
  have hscope : scope ∈ f.scopes.entries := by
    rw [hl]
    simp
  rcases checkScope_cases hscope with ⟨hok, -⟩ | ⟨t, hmissing, hstrays⟩ | ⟨problem, hdefect⟩
  · cases hok.symm.trans hfail
  · cases hmissing.symm.trans hfail
    exact Or.inl ⟨t, rfl, before, scope, after, hl, hbefore, hstrays⟩
  · cases hdefect.symm.trans hfail
    exact Or.inr ⟨problem, rfl⟩

theorem checkScopes_of_straysFirst {t : String} (h : f.StraysFirst t) :
    f.scopes.entries.forM (checkScope f) = .error (.missing (.name t)) := by
  obtain ⟨before, scope, after, hl, hbefore, hstrays⟩ := h
  have hscope : scope ∈ f.scopes.entries := by
    rw [hl]
    simp
  exact Except.forM_eq_error.mpr
    ⟨before, scope, after, hl, hbefore, checkScope_of_strays hscope hstrays⟩

theorem belowRoot_of_checkFunction (h : checkFunction f types signatures = .ok ()) {scope : Scope}
    (hscope : scope ∈ f.scopes.entries) : f.BelowRoot scope.id := by
  obtain ⟨_, -, h⟩ := Except.bind_inv h
  obtain ⟨_, -, h⟩ := Except.bind_inv h
  obtain ⟨_, hscopes, -⟩ := Except.bind_inv h
  exact belowRoot_of_checkScope (Except.forM_eq_ok.mp hscopes) hscope

/-- Apart from the scopes, whatever keeps a function from passing is a defect. -/
theorem checkFunction_eq_error {e : Fault} (ht : f.NamesTypes types)
    (h : checkFunction f types signatures = .error e) :
    (∃ problem, e = .malformed problem) ∨ checkSignature types f.signature = .ok () ∧
    checkEntry f = .ok () ∧
      ∃ t, e = .missing (.name t) ∧ f.StraysFirst t := by
  have hrest : Tells (f.bindings.entries.forM (checkBinding f) >>= fun _ =>
      f.blocks.entries.forM (checkBlock f types signatures)) := by
    refine .bind (.forM fun _ _ => .ensure _ _) fun _ => .forM fun b _ => ?_
    exact .bind (checkBody_tells ht.bindings) fun _ => checkEnding_tells
  rcases Except.bind_eq_error.mp h with h | ⟨_, hsignature, h⟩
  · exact Or.inl (checkSignature_tells ht.params ht.returns e h)
  rcases Except.bind_eq_error.mp h with h | ⟨_, hentry, h⟩
  · exact Or.inl (checkEntry_tells e h)
  rcases Except.bind_eq_error.mp h with h | ⟨_, -, h⟩
  · rcases checkScopes_inv h with hstrays | hdefect
    · exact Or.inr ⟨hsignature, hentry, hstrays⟩
    · exact Or.inl hdefect
  · exact Or.inl (hrest e h)

theorem checkFunction_of_straysFirst {t : String} (hs : checkSignature types f.signature = .ok ())
    (he : checkEntry f = .ok ()) (h : f.StraysFirst t) :
    checkFunction f types signatures = .error (.missing (.name t)) := by
  refine (Except.bind_of_ok hs).trans ((Except.bind_of_ok he).trans ?_)
  exact Except.bind_eq_error.mpr (Or.inl (checkScopes_of_straysFirst h))

end WellFormed

namespace Checker
variable {k : Checker} {f : Function} {reports reports' : List FunctionReport}

theorem checkFunction_of_malformed {problem : Malformed}
    (h : WellFormed.checkFunction f k.types (k.signaturesFor f) = .error (.malformed problem)) :
    k.checkFunction f = .ok ⟨f.name, .malformed problem⟩ := by
  have ha : k.analyze f = .error (.malformed problem) := Except.bind_eq_error.mpr (Or.inl h)
  rw [checkFunction, ha]
  rfl

/-- The report on a function stands between the reports on those before it and those behind it. -/
theorem verify_of_reports {p : Program} {policy : RegionPolicy} {autoBorrow : Bool}
    {classes : Classes} {before after : List Function} {report : FunctionReport}
    (hk : p.normalize.checker policy autoBorrow = k)
    (hc : p.normalize.types.classifyEvery.run ∅ = .ok () classes)
    (hp : p.normalize.functions.entries = before ++ f :: after)
    (hbefore : before.mapM k.checkFunction = .ok reports)
    (hf : k.checkFunction f = .ok report) (hafter : after.mapM k.checkFunction = .ok reports') :
    p.verify policy autoBorrow = .ok ⟨reports ++ report :: reports'⟩ := by
  have hall : p.normalize.functions.entries.mapM k.checkFunction =
      .ok (reports ++ report :: reports') := by
    rw [hp, List.mapM_append, Except.bind_of_ok hbefore, List.mapM_cons, bind_assoc,
      Except.bind_of_ok hf, bind_assoc, Except.bind_of_ok hafter]
    rfl
  rw [Program.verify, Program.verifyNormalized, hc, hk]
  exact Except.bind_of_ok hall

/-- The check of a function whose types are defined ends in one of three ways. If the function
passes, all its scopes are below the root. If it has a defect, the defect is the one diagnostic of
its report, and the program is reported on as before and behind it. Nothing else happens unless a
scope strays before a defect is found, and then no report is made. -/
theorem defect_reported_unless_scope_strays (ht : f.NamesTypes k.types) :
    (WellFormed.checkFunction f k.types (k.signaturesFor f) = .ok () →
      ∀ scope ∈ f.scopes.entries, f.BelowRoot scope.id) ∧
    (∀ problem,
      WellFormed.checkFunction f k.types (k.signaturesFor f) = .error (.malformed problem) →
      problem.diagnostic.kind = .malformedProgram ∧
      problem.diagnostic.message = problem.defect.message ∧
      ∃ report, k.checkFunction f = .ok report ∧ report.diagnostics = [problem.diagnostic] ∧
        ∀ (p : Program) (policy : RegionPolicy) (autoBorrow : Bool) (classes : Classes)
          (before after : List Function) (reports reports' : List FunctionReport),
          p.normalize.checker policy autoBorrow = k →
          p.normalize.types.classifyEvery.run ∅ = .ok () classes →
          p.normalize.functions.entries = before ++ f :: after →
          before.mapM k.checkFunction = .ok reports →
          after.mapM k.checkFunction = .ok reports' →
          p.verify policy autoBorrow = .ok ⟨reports ++ report :: reports'⟩) ∧
    (∀ t, WellFormed.checkFunction f k.types (k.signaturesFor f) = .error (.missing (.name t)) ↔
      WellFormed.checkSignature k.types f.signature = .ok () ∧ WellFormed.checkEntry f = .ok () ∧
      f.StraysFirst t) ∧
    ∀ e, WellFormed.checkFunction f k.types (k.signaturesFor f) = .error e →
      (∃ problem, e = .malformed problem) ∨ ∃ t, e = .missing (.name t) := by
  refine ⟨fun h _ => WellFormed.belowRoot_of_checkFunction h, fun problem h => ?_,
    fun t => ⟨fun h => ?_, ?_⟩, fun e h => ?_⟩
  · have hreport := checkFunction_of_malformed h
    refine ⟨rfl, rfl, _, hreport, rfl, ?_⟩
    intro p policy autoBorrow classes before after reports reports' hk hc hp hbefore hafter
    exact verify_of_reports hk hc hp hbefore hreport hafter
  · rcases WellFormed.checkFunction_eq_error ht h with ⟨_, ⟨⟩⟩ | ⟨hs, he, _, ⟨⟩, hstrays⟩
    exact ⟨hs, he, hstrays⟩
  · rintro ⟨hs, he, hstrays⟩
    exact WellFormed.checkFunction_of_straysFirst hs he hstrays
  · rcases WellFormed.checkFunction_eq_error ht h with hdefect | ⟨-, -, t, hmissing, -⟩
    · exact Or.inl hdefect
    · exact Or.inr ⟨t, hmissing⟩

end Checker

namespace Function

def strayingScopes : Function :=
  ((ofParts "strayingScopes" []
    [{ label := "entry", ending := some { terminator := .ret none } }]).addScope
    ⟨"inner", some "outer"⟩).addScope ⟨"outer", some "gone"⟩

def reorderedScopes : Function :=
  ((ofParts "reorderedScopes" []
    [{ label := "entry", ending := some { terminator := .ret none } }]).addScope
    ⟨"outer", some "gone"⟩).addScope ⟨"inner", some "outer"⟩

end Function

namespace Checker

theorem strayingScopes_namesTypes : Function.strayingScopes.NamesTypes basic.types :=
  .of_no_names rfl rfl rfl

theorem reorderedScopes_namesTypes : Function.reorderedScopes.NamesTypes basic.types :=
  .of_no_names rfl rfl rfl

/-- The first scope of the function strays; in the other order the unknown parent is its one
diagnostic. -/
theorem defect_reported_reorderedScopes :
    Function.strayingScopes.NamesTypes basic.types ∧ Function.strayingScopes.StraysFirst "gone" ∧
    Function.reorderedScopes.NamesTypes basic.types ∧
      ∃ report, basic.checkFunction .reorderedScopes = .ok report ∧
      report.diagnostics = [.malformed "scope 'outer' has unknown parent 'gone'" none
        .unknown] := by
  obtain ⟨-, -, hmissing, -⟩ := defect_reported_unless_scope_strays strayingScopes_namesTypes
  obtain ⟨-, hdefect, -⟩ := defect_reported_unless_scope_strays reorderedScopes_namesTypes
  obtain ⟨-, -, hstrays⟩ := (hmissing "gone").mp (by decide)
  obtain ⟨-, -, report, hreport, hds, -⟩ :=
    hdefect { defect := .unknownParent "outer" "gone" } (by decide)
  exact ⟨strayingScopes_namesTypes, hstrays, reorderedScopes_namesTypes, report, hreport, hds⟩

/-- A defect goes unreported where a scope inside of the defective one is checked before it. -/
theorem strayingScopes_unreported : Function.strayingScopes.NamesTypes basic.types ∧
    WellFormed.checkFunction .strayingScopes basic.types (basic.signaturesFor .strayingScopes) =
      .error (.missing (.name "gone")) ∧
    basic.checkFunction .strayingScopes = .error (.missing (.name "gone")) :=
  ⟨strayingScopes_namesTypes, by decide, by decide⟩

end Checker

end Ownership

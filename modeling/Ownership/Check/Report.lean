import Ownership.Check.Analysis

/-! # Reports

The diagnostics of a function come from one pass over its blocks with the states the analysis has
found. In a block only the first complaint about the state of a binding is reported, until the
binding gets a fresh value: the others follow from it.
-/

namespace Ownership

/-- A violation with where it was found. -/
def Violation.diagnostic (v : Violation) (location : Location) (span : Span) : Diagnostic :=
  { message := v.message, kind := v.kind, subject := v.subject, location,
    related := v.related, span }

namespace Event

/-- The violations of an event that do not follow from an earlier one, given the bindings whose
state has been complained about. -/
def fresh : List Violation → Names → List Violation × Names
  | [], blamed => ([], blamed)
  | v :: vs, blamed =>
    if v.kind.isUseState then
      if blamed.contains v.subject then fresh vs blamed
      else
        let (vs, blamed) := fresh vs (blamed.insert v.subject)
        (v :: vs, blamed)
    else
      let (vs, blamed) := fresh vs blamed
      (v :: vs, blamed)

/-- The diagnostics of the events of a block. -/
def diagnostics : List Event → Names → List Diagnostic
  | [], _ => []
  | e :: es, blamed =>
    let (vs, blamed) := fresh e.violations blamed
    let blamed := match e.refreshed with
      | some x => blamed.erase x
      | none => blamed
    vs.map (fun v => v.diagnostic e.location e.span) ++ diagnostics es blamed

end Event

/-- How the check of a function ended. -/
inductive Outcome
  | malformed (problem : Malformed)
  | analysed (visits blocks : Nat) (diagnostics : List Diagnostic)
deriving DecidableEq, Repr

structure FunctionReport where
  name : String
  outcome : Outcome
deriving DecidableEq, Repr

namespace FunctionReport

def diagnostics (r : FunctionReport) : List Diagnostic :=
  match r.outcome with
  | .malformed problem => [problem.diagnostic]
  | .analysed _ _ ds => ds

def visits (r : FunctionReport) : Nat :=
  match r.outcome with
  | .malformed _ => 0
  | .analysed visits _ _ => visits

def accepted (r : FunctionReport) : Bool := r.diagnostics.isEmpty

end FunctionReport

namespace Checker

/-- The events of a block, from the state that the analysis has found on its entry. -/
def eventsOf (k : Checker) (a : Analysis) (label : String) : Except Fault (List Event) := do
  match a.inStates[label]? with
  | none => throw (.missing (.name label))
  | some s => return (← k.transferBlock a.function a.regions label s).2

/-- The diagnostics of an analysed function, block after block. -/
def diagnose (k : Checker) (a : Analysis) : Except Fault (List Diagnostic) := do
  let blocks ← a.order.mapM fun label => return Event.diagnostics (← k.eventsOf a label) ∅
  return blocks.flatten

/-- Checks a function. -/
def checkFunction (k : Checker) (f : Function) : Except Fault FunctionReport :=
  match k.analyze f with
  | .error (.malformed problem) => return ⟨f.name, .malformed problem⟩
  | .error e => throw e
  | .ok a => return ⟨f.name, .analysed a.visits a.order.length (← k.diagnose a)⟩

end Checker

end Ownership

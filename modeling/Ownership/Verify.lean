import Ownership.Check.Report

/-! # Verification of programs

Every function of a program is checked on its own against the signatures of the others.
-/

namespace Ownership

/-- The reports on the functions of a program, in its order. -/
structure ProgramReport where
  functions : List FunctionReport
deriving DecidableEq, Repr

namespace ProgramReport

def accepted (r : ProgramReport) : Bool := r.functions.all FunctionReport.accepted

def diagnostics (r : ProgramReport) : List Diagnostic :=
  r.functions.flatMap FunctionReport.diagnostics

def rejected (r : ProgramReport) : List FunctionReport := r.functions.filter fun f => !f.accepted

end ProgramReport

namespace Program

/-- A checker that knows every signature of the program. -/
def checker (p : Program) (policy : RegionPolicy) (autoBorrow : Bool) : Checker :=
  { types := p.types, signatures := some p.signatures, policy, autoBorrow }

/-- Verifies a program whose introduced references are declared. All its types have to be
classifiable, whether they are used or not. -/
def verifyNormalized (p : Program) (policy : RegionPolicy) (autoBorrow : Bool) :
    Except Fault ProgramReport :=
  match p.types.classifyEvery.run ∅ with
  | .error e _ => throw e
  | .ok _ _ => return ⟨← p.functions.entries.mapM (p.checker policy autoBorrow).checkFunction⟩

/-- Verifies a program. -/
def verify (p : Program) (policy : RegionPolicy := .lastUse) (autoBorrow : Bool := true) :
    Except Fault ProgramReport :=
  p.normalize.verifyNormalized policy autoBorrow

end Program

end Ownership

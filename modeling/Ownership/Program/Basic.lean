import Ownership.Program.Function

/-! # Programs

A program has a type table, functions with bodies, and signatures of functions defined elsewhere.
A borrow may introduce its reference without a declaration; such references become bindings of the
root scope before a function is checked.
-/

namespace Ownership

namespace Function

/-- Declares the reference that an operation introduces, if it does and its source is known. -/
def declareIntroduced (f : Function) (types : TypeTable) (i : Instruction) : Function × TypeTable :=
  match i.op with
  | .borrow binding kind ref =>
    if f.bindings.contains ref then
      (f, types)
    else
      match f.bindings.get? binding with
      | none => (f, types)
      | some source =>
        let (types, type) := types.ref source.type (kind == .exclusive) none
        (f.addBinding { name := ref, type, span := i.span }, types)
  | _ => (f, types)

/-- Declares every reference that a borrow introduces. -/
def normalize (f : Function) (types : TypeTable) : Function × TypeTable :=
  f.instructions.foldl (fun (f, types) i => f.declareIntroduced types i) (f, types)

end Function

structure Program where
  types : TypeTable := {}
  functions : Registry Function := ∅
  externs : Registry Signature := ∅
deriving DecidableEq, Repr

namespace Program

/-- The signatures that may be called; a function with a body wins over an extern of its name. -/
def signatures (p : Program) : Registry Signature :=
  p.functions.entries.foldl (fun r f => r.insert f.signature) p.externs

def function (p : Program) (name : String) : Except Fault Function :=
  match p.functions.get? name with
  | some f => .ok f
  | none => .error (.missing (.name name))

def addFunction (p : Program) (f : Function) : Program :=
  { p with functions := p.functions.insert f }

def addExtern (p : Program) (s : Signature) : Program := { p with externs := p.externs.insert s }

/-- Declares the introduced references of one function. -/
def normalizeFunction (p : Program) (f : Function) : Program :=
  let (f, types) := f.normalize p.types
  { p with types, functions := p.functions.insert f }

/-- Declares the introduced references of every function. -/
def normalize (p : Program) : Program := p.functions.entries.foldl normalizeFunction p

end Program

end Ownership

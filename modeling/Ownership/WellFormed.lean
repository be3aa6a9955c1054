import Ownership.Program.Basic

/-! # Well-formed functions

A function may be analysed if its names mean something: lifetimes are declared, scopes form a tree,
operations mention bindings and scopes of the function, jumps go to blocks of it, and calls fit the
signature of the function they call. The first defect found is the one reported.
-/

namespace Ownership

def staticLifetime : String := "'static"

namespace WellFormed

/-- Passes if the condition holds, and otherwise reports the defect. -/
def ensure (condition : Bool) (problem : Malformed) : Except Fault Unit :=
  if condition then .ok () else .error (.malformed problem)

def lifetimeOf (types : TypeTable) (id : TypeId) : Except Fault (Option String) :=
  return (← types.fetch id).lifetime?

/-- The lifetimes of the parameters of a list, given the names of the parameters before it. -/
def checkParams (types : TypeTable) (s : Signature) : List Param → List String →
    Except Fault (List String)
  | [], _ => .ok []
  | p :: ps, seen => do
    ensure (!seen.contains p.name) ⟨.duplicateParameter p.name s.name, none, s.span⟩
    match ← lifetimeOf types p.type with
    | none => checkParams types s ps (p.name :: seen)
    | some lt =>
      ensure (lt == staticLifetime || s.lifetimes.contains lt)
        ⟨.undeclaredParameterLifetime p.name lt, none, s.span⟩
      return lt :: (← checkParams types s ps (p.name :: seen))

/-- The lifetimes that a signature mentions are declared, and a returned reference lives as long as
some parameter. -/
def checkSignature (types : TypeTable) (s : Signature) : Except Fault Unit := do
  s.outlives.forM fun (long, short) =>
    [long, short].forM fun lt =>
      ensure (lt == staticLifetime || s.lifetimes.contains lt)
        ⟨.undeclaredBound lt s.name, none, s.span⟩
  let lifetimes ← checkParams types s s.params []
  match s.returns with
  | none => return ()
  | some id =>
    match ← lifetimeOf types id with
    | none => return ()
    | some lt =>
      ensure (lt == staticLifetime || lifetimes.contains lt)
        ⟨.foreignReturnLifetime lt s.name, none, s.span⟩

/-- Climbs from a scope to a scope without parent, in at most the given number of steps. -/
def climb (f : Function) (start : String) : Nat → String → Except Fault Unit
  | 0, _ => .error (.malformed { defect := .cyclicScope start })
  | n + 1, s =>
    match f.scopes.get? s with
    | none => .error (.missing (.name s))
    | some scope =>
      match scope.parent with
      | none => .ok ()
      | some p => climb f start n p

def checkScope (f : Function) (s : Scope) : Except Fault Unit :=
  match s.parent with
  | none => ensure (s.id == rootScope) { defect := .orphanScope s.id }
  | some p => do
    ensure (f.scopes.contains p) { defect := .unknownParent s.id p }
    climb f s.id f.scopes.size s.id

def checkBinding (f : Function) (b : Binding) : Except Fault Unit :=
  ensure (f.scopes.contains b.scope) ⟨.unknownBindingScope b.name b.scope, none, b.span⟩

/-- The function has a binding of this name. -/
def checkName (f : Function) (location : Location) (span : Span) (name : String) :
    Except Fault Unit :=
  ensure (f.bindings.contains name) ⟨.undeclaredBinding name, some location, span⟩

def checkCall (f : Function) (signatures : Registry Signature) (location : Location) (span : Span)
    (c : Call) : Except Fault Unit :=
  match signatures.get? c.function with
  | none => .error (.malformed ⟨.unknownCallee c.function, some location, span⟩)
  | some s => do
    ensure (c.args.length == s.params.length)
      ⟨.wrongArity c.function c.args.length s.params.length, some location, span⟩
    c.args.forM (checkName f location span)
    c.dest.toList.forM (checkName f location span)
    c.lifetimes.forM fun (lt, names) => do
      ensure (s.lifetimes.contains lt) ⟨.noSuchLifetime c.function lt, some location, span⟩
      names.forM fun name =>
        ensure (c.args.contains name) ⟨.boundToNonArgument lt name, some location, span⟩

def checkOp (f : Function) (types : TypeTable) (signatures : Registry Signature)
    (location : Location) (span : Span) : Op → Except Fault Unit
  | .declare binding => checkName f location span binding
  | .init binding source => do
    checkName f location span binding
    source.toList.forM (checkName f location span)
  | .move dest source | .copy dest source => do
    checkName f location span dest
    checkName f location span source
  | .borrow binding _ ref => do
    checkName f location span binding
    match f.bindings.get? ref with
    | none => .error (.malformed ⟨.undeclaredBinding ref, some location, span⟩)
    | some b =>
      ensure (← types.fetch b.type).isRef ⟨.notReferenceTyped ref, some location, span⟩
  | .use ref => checkName f location span ref
  | .write target value => do
    checkName f location span target
    value.toList.forM (checkName f location span)
  | .call c => checkCall f signatures location span c
  | .endScope scope =>
    ensure (f.scopes.contains scope) ⟨.unknownScopeEnd scope, some location, span⟩
  | .unsupported name => .error (.malformed { defect := .unsupportedOperation name, location })

/-- Checks the operations of a block, the first of which has the given index. -/
def checkBody (f : Function) (types : TypeTable) (signatures : Registry Signature)
    (label : String) : Int → List Instruction → Except Fault Unit
  | _, [] => .ok ()
  | n, i :: rest => do
    checkOp f types signatures ⟨f.name, label, n⟩ i.span i.op
    checkBody f types signatures label (n + 1) rest

def checkEnding (f : Function) (label : String) (location : Location) :
    Option Ending → Except Fault Unit
  | none => .error (.malformed { defect := .noTerminator label, location })
  | some ⟨.unsupported name, _⟩ =>
    .error (.malformed { defect := .unsupportedTerminator name, location })
  | some e => do
    e.terminator.targets.forM fun target =>
      ensure (f.blocks.contains target) ⟨.unknownTarget label target, some location, e.span⟩
    e.terminator.uses.forM (checkName f location e.span)

def checkBlock (f : Function) (types : TypeTable) (signatures : Registry Signature) (b : Block) :
    Except Fault Unit := do
  checkBody f types signatures b.label 0 b.body
  checkEnding f b.label ⟨f.name, b.label, b.body.length⟩ b.ending

/-- The function has a block to start from. -/
def checkEntry (f : Function) : Except Fault Unit :=
  match f.entryLabel with
  | none => .error (.malformed ⟨.noBlocks f.name, none, f.signature.span⟩)
  | some label => do
    ensure (f.blocks.size != 0) ⟨.noBlocks f.name, none, f.signature.span⟩
    ensure (f.blocks.contains label) ⟨.unknownEntry label f.name, none, f.signature.span⟩

/-- Passes exactly the functions that may be analysed. -/
def checkFunction (f : Function) (types : TypeTable) (signatures : Registry Signature) :
    Except Fault Unit := do
  checkSignature types f.signature
  checkEntry f
  f.scopes.entries.forM (checkScope f)
  f.bindings.entries.forM (checkBinding f)
  f.blocks.entries.forM (checkBlock f types signatures)

end WellFormed

end Ownership

import Ownership.Listing.Error
import Ownership.Listing.Parser
import Ownership.Program.Basic
import Ownership.WellFormed

/-! # From listings to programs

The names of all declared types are known before any of them is defined, and all types before the
functions. Within a function, scopes come before blocks. References that a borrow introduces are
declared as soon as a function is built.
-/

namespace Ownership.Listing

/-- Work that registers types as it goes. -/
abbrev Build := StateT TypeTable (Except Error)

namespace Build

variable {α : Type}

def reject (problem : Problem) (span : Span) : Build α := throw (.at problem span)

/-- Passes if the condition holds. -/
def ensure (condition : Bool) (problem : Problem) (span : Span) : Build Unit :=
  if condition then return () else reject problem span

/-- Registers a type under a name. -/
def named (f : TypeTable → Except NameClash (TypeTable × TypeId)) : Build TypeId := do
  match f (← get) with
  | .ok (types, id) => set types; return id
  | .error c => throw (.clash c)

/-- Registers a type without a name. -/
def interned (f : TypeTable → TypeTable × TypeId) : Build TypeId :=
  modifyGet fun types => let (types, id) := f types; (id, types)

/-- The names of the builtin scalar types. -/
def scalarNames : List String := ["Int", "Bool", "Float", "Char", "Byte"]

def typeId : TypeExpr → Build TypeId
  | .named w => do
    if w.text = "String" then named TypeTable.string
    else if w.text = "Unknown" then named TypeTable.unknown
    else if scalarNames.contains w.text then named fun t => t.scalar w.text
    else
      match (← get).lookup? w.text with
      | some id => return id
      | none => reject (.unknownType w.text) w.span
  | .array element => do
    let id ← typeId element
    interned fun t => t.array id
  | .ref tag exclusive inner => do
    let id ← typeId inner
    interned fun t => t.ref id exclusive tag

/-- Registers the name of a declared type. -/
def declareType : Item → Build Unit
  | .struct w _ _ => do
    ensure ((← get).lookup? w.text).isNone (.duplicateType w.text) w.span
    discard (named fun t => t.declareStruct w.text)
  | .variant w _ => do
    ensure ((← get).lookup? w.text).isNone (.duplicateType w.text) w.span
    discard (named fun t => t.declareVariant w.text)
  | _ => return ()

/-- The members of a struct, given the names of those before them. -/
def fields (struct : String) : List (Word × TypeExpr) → List String → Build (List (String × TypeId))
  | [], _ => return []
  | (w, t) :: rest, seen => do
    ensure (!seen.contains w.text) (.duplicateMember w.text struct) w.span
    let id ← typeId t
    return (w.text, id) :: (← fields struct rest (w.text :: seen))

/-- The arms of a variant, given the names of those before them. -/
def arms (variant : String) :
    List (Word × List TypeExpr) → List String → Build (List (String × List TypeId))
  | [], _ => return []
  | (w, ts) :: rest, seen => do
    ensure (!seen.contains w.text) (.duplicateArm w.text variant) w.span
    let ids ← ts.mapM typeId
    return (w.text, ids) :: (← arms variant rest (w.text :: seen))

def defineType : Item → Build Unit
  | .struct w finalizer members => do
    let members ← fields w.text members []
    discard (named fun t => t.defineStruct w.text members finalizer)
  | .variant w cases => do
    let cases ← arms w.text cases []
    discard (named fun t => t.defineVariant w.text cases)
  | _ => return ()

def param (p : ParamExpr) : Build Param := do
  return { name := p.name, type := ← typeId p.type, mutable := p.mutable }

def signature (s : SignatureExpr) : Build Signature := do
  s.generics.forM fun g => ensure (g.name != staticLifetime) .staticParameter g.span
  let params ← s.params.mapM param
  let returns ← s.returns.mapM typeId
  return { name := s.name, params, returns
           lifetimes := s.generics.map LifetimeExpr.name
           outlives := s.generics.flatMap fun g => g.bounds.map fun b => (g.name, b)
           span := s.span }

def scope (f : Function) (s : ScopeExpr) : Build Function := do
  ensure (!f.scopes.contains s.name) (.duplicateScope s.name) s.span
  return f.addScope { id := s.name, parent := some (s.parent.getD rootScope) }

/-- Adds names to those bound to a lifetime. -/
def bindTo (bound : List (String × List String)) (lifetime : String) (names : List String) :
    List (String × List String) :=
  match bound with
  | [] => [(lifetime, names)]
  | (lt, ns) :: rest =>
    if lt = lifetime then (lt, ns ++ names) :: rest else (lt, ns) :: bindTo rest lifetime names

/-- An operation in which each lifetime is bound once. -/
def gather : Op → Op
  | .call c =>
    .call { c with lifetimes := c.lifetimes.foldl (fun bound (lt, names) =>
      bindTo bound lt names) [] }
  | op => op

/-- Builds a statement and declares the binding that it declares. -/
def statement (f : Function) (s : StatementExpr) : Build (Function × Instruction) := do
  match s.statement with
  | .op op => return (f, ⟨gather op, s.span⟩)
  | .declare mutable name type scope =>
    let b : Binding :=
      { name, type := ← typeId type, scope := scope.getD rootScope, mutable, span := s.span }
    ensure ((f.bindings.get? name).all b.sameDeclaration) (.conflictingDeclarations name) s.span
    return (f.addBinding b, ⟨.declare name, s.span⟩)

def statements (f : Function) : List StatementExpr → Build (Function × List Instruction)
  | [] => return (f, [])
  | s :: rest => do
    let (f, i) ← statement f s
    let (f, body) ← statements f rest
    return (f, i :: body)

def block (f : Function) (b : BlockExpr) : Build Function := do
  ensure (!f.blocks.contains b.label) (.duplicateLabel b.label) b.span
  let (f, body) ← statements f b.body
  return f.addBlock { label := b.label, body, ending := some b.ending }

def function (s : SignatureExpr) (scopes : List ScopeExpr) (blocks : List BlockExpr) :
    Build Function := do
  let f := Function.ofSignature (← signature s)
  let f ← scopes.foldlM scope f
  blocks.foldlM block f

/-- No function of the program has this name yet. -/
def checkUnique (p : Program) (s : Signature) : Build Unit :=
  ensure (!p.functions.contains s.name && !p.externs.contains s.name)
    (.duplicateFunction s.name) s.span

/-- Adds a function to a program, whose types are those of the work so far. -/
def addItem (p : Program) : Item → Build Program
  | .external s => do
    let s ← signature s
    checkUnique p s
    return p.addExtern s
  | .function s scopes blocks => do
    let f ← function s scopes blocks
    checkUnique p f.signature
    let f ← modifyGet fun types => f.normalize types
    return p.addFunction f
  | _ => return p

def program (items : List Item) : Build Program := do
  items.forM declareType
  items.forM defineType
  let p ← items.foldlM addItem {}
  return { p with types := ← get }

end Build

/-- Why a parser stopped at some tokens: the next one, or else what ends the text. The end of a text
is reported where its last token starts. -/
def stopError (file : Option String) (scan : Scan) : List Token → Error
  | t :: _ => .at (.unexpectedToken t.text) t.span.start
  | [] =>
    match scan.stop with
    | .badCharacter c p => .at (.unexpectedCharacter c) (p.point file)
    | .finished =>
      .at .unexpectedEnd ((scan.tokens.getLast?.map fun t => t.span.start).getD { file })

/-- The items of a listing. -/
def parseItems (source : String) (file : Option String) : Except Error (List Item) :=
  let scan := scan source file
  match Parser.items.run scan.tokens with
  | .error rest => .error (stopError file scan rest)
  | .ok (items, rest) =>
    if rest.isEmpty && scan.stop = .finished then .ok items else .error (stopError file scan rest)

/-- The program that a listing describes. -/
def parse (source : String) (file : Option String) : Except Error Program := do
  let (p, _) ← (Build.program (← parseItems source file)).run {}
  return p

end Ownership.Listing

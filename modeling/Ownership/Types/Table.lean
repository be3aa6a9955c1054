import Ownership.Malformed

/-! # The type table

The types of a program. A type is known by its number; numbers are given out from one upward in
the order in which types are registered.

Named types are registered once for each name. References are shared by inner type, exclusivity
and lifetime, arrays by element type. A struct or variant is declared first and defined later, so
that its members may name types that come after it.
-/

namespace Ownership

abbrev TypeId := Int

inductive TypeKind
  | scalar
  | string
  | struct
  | variant
  | array
  | ref
  | unknown
deriving DecidableEq, Repr, Inhabited

def TypeKind.code : TypeKind → String
  | scalar => "SCALAR"
  | string => "STRING"
  | struct => "STRUCT"
  | variant => "VARIANT"
  | array => "ARRAY"
  | ref => "REF"
  | unknown => "UNKNOWN"

inductive TypeDef
  | scalar (name : String)
  | string
  | struct (name : String) (fields : List (String × TypeId)) (finalizer : Bool)
  | variant (name : String) (arms : List (String × List TypeId))
  | array (element : TypeId)
  | ref (inner : TypeId) (exclusive : Bool) (lifetime : Option String)
  | unknown
deriving DecidableEq, Repr, Inhabited

namespace TypeDef

def kind : TypeDef → TypeKind
  | scalar _ => .scalar
  | string => .string
  | struct .. => .struct
  | variant .. => .variant
  | array _ => .array
  | ref .. => .ref
  | unknown => .unknown

def name : TypeDef → String
  | scalar n => n
  | string => "String"
  | struct n _ _ => n
  | variant n _ => n
  | array _ => "Array"
  | ref _ exclusive _ => if exclusive then "RefMut" else "Ref"
  | unknown => "Unknown"

/-- Whether the type is found by its name. -/
def isNamed : TypeDef → Bool
  | array _ | ref .. => false
  | _ => true

def isRef : TypeDef → Bool
  | ref .. => true
  | _ => false

def isExclusiveRef : TypeDef → Bool
  | ref _ exclusive _ => exclusive
  | _ => false

/-- The lifetime a reference type is tagged with. -/
def lifetime? : TypeDef → Option String
  | ref _ _ lifetime => lifetime
  | _ => none

/-- The types a type is made of. -/
def members : TypeDef → List TypeId
  | struct _ fields _ => fields.map Prod.snd
  | variant _ arms => arms.flatMap Prod.snd
  | array element => [element]
  | ref inner _ _ => [inner]
  | _ => []

/-- The names of a struct's members or of a variant's arms. -/
def memberNames : TypeDef → List String
  | struct _ fields _ => fields.map Prod.fst
  | variant _ arms => arms.map Prod.fst
  | _ => []

/-- Whether values are released by a hook of their own. -/
def hasFinalizer : TypeDef → Bool
  | struct _ _ finalizer => finalizer
  | _ => false

/-- The payload of each arm of a variant. -/
def armPayloads : TypeDef → List (List TypeId)
  | variant _ arms => arms.map Prod.snd
  | _ => []

end TypeDef

/-- The refusal to register a type under a name that another kind of type has. -/
inductive NameClash
  | registered (name : String) (kind : TypeKind)
  | notStruct (name : String)
deriving DecidableEq, Repr

def NameClash.message : NameClash → String
  | registered name kind => s!"type name '{name}' already registered as {kind.code}"
  | notStruct name => s!"type name '{name}' already used by a non-struct type"

/-- The registered types; the first has number one. -/
structure TypeTable where
  defs : List TypeDef := []
deriving DecidableEq, Repr, Inhabited

namespace TypeTable

def empty : TypeTable := {}

def size (t : TypeTable) : Nat := t.defs.length

def ids (t : TypeTable) : List TypeId := (List.range t.size).map fun i : Nat => (i : Int) + 1

def get? (t : TypeTable) (id : TypeId) : Option TypeDef :=
  if 1 ≤ id then t.defs[(id - 1).toNat]? else none

def fetch (t : TypeTable) (id : TypeId) : Except Fault TypeDef :=
  match t.get? id with
  | some d => .ok d
  | none => .error (.missing (.type id))

/-- The number of the first type that satisfies a test. -/
def find? (t : TypeTable) (p : TypeDef → Bool) : Option TypeId :=
  (t.defs.findIdx? p).map fun i : Nat => (i : Int) + 1

def lookup? (t : TypeTable) (name : String) : Option TypeId :=
  t.find? fun d => d.isNamed && d.name == name

def push (t : TypeTable) (d : TypeDef) : TypeTable × TypeId :=
  (⟨t.defs ++ [d]⟩, (t.size : Int) + 1)

/-- Gives a type's number, registering it if it is new. -/
def intern (t : TypeTable) (d : TypeDef) : TypeTable × TypeId :=
  match t.find? (· == d) with
  | some id => (t, id)
  | none => t.push d

/-- Gives the number of the named type of this kind, registering it if the name is free. -/
def internNamed (t : TypeTable) (d : TypeDef) : Except NameClash (TypeTable × TypeId) :=
  match t.lookup? d.name with
  | none => .ok (t.push d)
  | some id =>
    match t.get? id with
    | some e => if e.kind = d.kind then .ok (t, id) else .error (.registered d.name e.kind)
    | none => .ok (t, id)

def scalar (t : TypeTable) (name : String) : Except NameClash (TypeTable × TypeId) :=
  t.internNamed (.scalar name)

def int (t : TypeTable) : Except NameClash (TypeTable × TypeId) := t.scalar "Int"

def bool (t : TypeTable) : Except NameClash (TypeTable × TypeId) := t.scalar "Bool"

def string (t : TypeTable) : Except NameClash (TypeTable × TypeId) := t.internNamed .string

def unknown (t : TypeTable) : Except NameClash (TypeTable × TypeId) := t.internNamed .unknown

def ref (t : TypeTable) (inner : TypeId) (exclusive : Bool) (lifetime : Option String) :
    TypeTable × TypeId :=
  t.intern (.ref inner exclusive lifetime)

def array (t : TypeTable) (element : TypeId) : TypeTable × TypeId := t.intern (.array element)

/-- Gives a registered type a new definition. -/
def redefine (t : TypeTable) (id : TypeId) (d : TypeDef) : TypeTable :=
  ⟨t.defs.set (id - 1).toNat d⟩

def declareStruct (t : TypeTable) (name : String) : Except NameClash (TypeTable × TypeId) :=
  match t.lookup? name with
  | none => .ok (t.push (.struct name [] false))
  | some id =>
    match t.get? id with
    | some (.struct ..) => .ok (t, id)
    | _ => .error (.notStruct name)

def defineStruct (t : TypeTable) (name : String) (fields : List (String × TypeId))
    (finalizer : Bool) : Except NameClash (TypeTable × TypeId) := do
  let (t, id) ← t.declareStruct name
  return (t.redefine id (.struct name fields finalizer), id)

def declareVariant (t : TypeTable) (name : String) : Except NameClash (TypeTable × TypeId) :=
  t.internNamed (.variant name [])

def defineVariant (t : TypeTable) (name : String) (arms : List (String × List TypeId)) :
    Except NameClash (TypeTable × TypeId) := do
  let (t, id) ← t.declareVariant name
  return (t.redefine id (.variant name arms), id)

/-- The spelling of a type whose references and arrays nest less deep than the bound. -/
def spell (t : TypeTable) : Nat → TypeId → Except Fault String
  | 0, _ => .error .endless
  | n + 1, id => do
    match ← t.fetch id with
    | .ref inner exclusive lifetime =>
      let tag := match lifetime with
        | some lt => if lt.isEmpty then "" else lt ++ " "
        | none => ""
      return "&" ++ tag ++ (if exclusive then "mut " else "") ++ (← t.spell n inner)
    | .array element => return "[" ++ (← t.spell n element) ++ "]"
    | d => return d.name

/-- The spelling of a type in messages. Nesting deeper than the number of types meets a type
inside itself. -/
def display (t : TypeTable) (id : TypeId) : Except Fault String := t.spell (t.size + 1) id

end TypeTable

end Ownership

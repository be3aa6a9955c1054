import Ownership.Program.Op
import Ownership.Registry
import Ownership.Types.Table

/-! # Functions

A function is a table of bindings, a tree of scopes and a graph of blocks. Its parameters are
bindings of the root scope from the start.
-/

namespace Ownership

def rootScope : String := "fn"

/-- A named storage place of a function. -/
structure Binding where
  name : String
  type : TypeId
  scope : String := rootScope
  mutable : Bool := false
  span : Span := .unknown
deriving DecidableEq, Repr, Inhabited

/-- The same place, declared anywhere. -/
def Binding.sameDeclaration (a b : Binding) : Bool :=
  a.name == b.name && a.type == b.type && a.scope == b.scope && a.mutable == b.mutable

instance : Named Binding := ⟨Binding.name⟩

/-- A lexical extent. Only the root scope has no parent. -/
structure Scope where
  id : String
  parent : Option String := none
deriving DecidableEq, Repr, Inhabited

instance : Named Scope := ⟨Scope.id⟩

structure Block where
  label : String
  body : List Instruction := []
  ending : Option Ending := none
deriving DecidableEq, Repr, Inhabited

instance : Named Block := ⟨Block.label⟩

def Block.successors (b : Block) : List String :=
  match b.ending with
  | some e => e.terminator.targets
  | none => []

def Block.endingUses (b : Block) : List String :=
  match b.ending with
  | some e => e.terminator.uses
  | none => []

def Block.endingSpan (b : Block) : Span :=
  match b.ending with
  | some e => e.span
  | none => .unknown

structure Param where
  name : String
  type : TypeId
  mutable : Bool := false
deriving DecidableEq, Repr, Inhabited

/-- A signature. In `outlives`, the first lifetime of a pair lives at least as long as the
second. -/
structure Signature where
  name : String
  params : List Param := []
  returns : Option TypeId := none
  lifetimes : List String := []
  outlives : List (String × String) := []
  span : Span := .unknown
deriving DecidableEq, Repr, Inhabited

instance : Named Signature := ⟨Signature.name⟩

/-- The binding a parameter is to the body of its function. -/
def Signature.paramBinding (s : Signature) (p : Param) : Binding :=
  { name := p.name, type := p.type, mutable := p.mutable, span := s.span }

/-- Binds a parameter; of two parameters with one name the first counts. -/
def Signature.bindParam (s : Signature) (r : Registry Binding) (p : Param) : Registry Binding :=
  if r.contains p.name then r else r.insert (s.paramBinding p)

/-- The bindings of the parameters. -/
def Signature.bindings (s : Signature) : Registry Binding := s.params.foldl s.bindParam ∅

theorem Signature.contains_bindParam (s : Signature) (r : Registry Binding) (p : Param)
    (n : String) : (s.bindParam r p).contains n = (r.contains n || p.name == n) := by
  unfold bindParam
  split
  · rename_i h
    by_cases hn : p.name = n
    · subst hn; simp [h]
    · simp [hn]
  · rw [Registry.contains_insert]; rfl

theorem Signature.contains_bindings {s : Signature} {p : Param} (hp : p ∈ s.params) :
    s.bindings.contains p.name = true := by
  suffices h : ∀ (ps : List Param) (r : Registry Binding),
      r.contains p.name = true ∨ p ∈ ps → (ps.foldl s.bindParam r).contains p.name = true from
    h s.params ∅ (Or.inr hp)
  intro ps
  induction ps with
  | nil => intro r h; simpa using h
  | cons q ps ih =>
    intro r h
    apply ih
    rw [contains_bindParam]
    rcases h with h | h
    · simp [h]
    · rcases List.mem_cons.mp h with rfl | h
      · simp
      · exact Or.inr h

structure Function where
  signature : Signature
  bindings : Registry Binding
  scopes : Registry Scope
  blocks : Registry Block
  entry : Option String
  params_bound : ∀ p ∈ signature.params, bindings.contains p.name = true
deriving DecidableEq, Repr

namespace Function

def name (f : Function) : String := f.signature.name

instance : Named Function := ⟨Function.name⟩

/-- A function without a body: its parameters are bound and its root scope is there. -/
def ofSignature (s : Signature) (entry : Option String := none) : Function where
  signature := s
  bindings := s.bindings
  scopes := Registry.empty.insert { id := rootScope }
  blocks := ∅
  entry := entry
  params_bound _ hp := Signature.contains_bindings hp

def addScope (f : Function) (s : Scope) : Function := { f with scopes := f.scopes.insert s }

def addBlock (f : Function) (b : Block) : Function := { f with blocks := f.blocks.insert b }

def addBinding (f : Function) (b : Binding) : Function :=
  { f with
    bindings := f.bindings.insert b
    params_bound := fun p hp => by
      rw [Registry.contains_insert, f.params_bound p hp, Bool.true_or] }

/-- The block where the function starts: the one it names, or else its first. -/
def entryLabel (f : Function) : Option String :=
  match f.entry with
  | some l => some l
  | none => f.blocks.names.head?

def binding (f : Function) (name : String) : Except Fault Binding :=
  match f.bindings.get? name with
  | some b => .ok b
  | none => .error (.missing (.name name))

def block (f : Function) (label : String) : Except Fault Block :=
  match f.blocks.get? label with
  | some b => .ok b
  | none => .error (.missing (.name label))

/-- The blocks that control may go to from a block. -/
def successors (f : Function) (label : String) : Except Fault (List String) :=
  return (← f.block label).successors

/-- The operations of all blocks, in the order of the block table. -/
def instructions (f : Function) : List Instruction := f.blocks.entries.flatMap Block.body

/-- Scopes found from those in the queue by going from parent to child; at most `n` are opened. -/
def scopesBelow (f : Function) : Nat → List String → List String → List String
  | 0, queue, _ => queue
  | _ + 1, [], _ => []
  | n + 1, s :: queue, seen =>
    let children := (f.scopes.entries.filter fun c => c.parent == some s && !seen.contains c.id).map
      Scope.id
    s :: f.scopesBelow n (queue ++ children) (seen ++ children)

/-- A scope and all scopes inside it, outer ones first. -/
def scopeDescendants (f : Function) (scope : String) : List String :=
  f.scopesBelow (f.scopes.size + 1) [scope] [scope]

end Function

end Ownership

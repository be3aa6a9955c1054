import Ownership.Program.Op

/-! # Syntax trees of a listing

What a listing says, before its type names are looked up.
-/

namespace Ownership.Listing

/-- A name and where it is written. -/
structure Word where
  text : String
  span : Span
deriving DecidableEq, Repr, Inhabited

inductive TypeExpr
  | named (name : Word)
  | array (element : TypeExpr)
  | ref (lifetime : Option String) (exclusive : Bool) (inner : TypeExpr)
deriving DecidableEq, Repr, Inhabited

/-- A lifetime parameter and the lifetimes it outlives. -/
structure LifetimeExpr where
  name : String
  bounds : List String
  span : Span
deriving DecidableEq, Repr, Inhabited

structure ParamExpr where
  mutable : Bool
  name : String
  type : TypeExpr
deriving DecidableEq, Repr, Inhabited

structure SignatureExpr where
  name : String
  generics : List LifetimeExpr
  params : List ParamExpr
  returns : Option TypeExpr
  span : Span
deriving DecidableEq, Repr, Inhabited

/-- A statement of a block. A declaration also says what is declared. In a call, the lifetimes stand
as they are written. -/
inductive Statement
  | declare (mutable : Bool) (name : String) (type : TypeExpr) (scope : Option String)
  | op (op : Op)
deriving DecidableEq, Repr, Inhabited

structure StatementExpr where
  statement : Statement
  span : Span
deriving DecidableEq, Repr, Inhabited

structure ScopeExpr where
  name : String
  parent : Option String
  span : Span
deriving DecidableEq, Repr, Inhabited

structure BlockExpr where
  label : String
  body : List StatementExpr
  ending : Ending
  span : Span
deriving DecidableEq, Repr, Inhabited

inductive Item
  | struct (name : Word) (finalizer : Bool) (fields : List (Word × TypeExpr))
  | variant (name : Word) (arms : List (Word × List TypeExpr))
  | external (signature : SignatureExpr)
  | function (signature : SignatureExpr) (scopes : List ScopeExpr) (blocks : List BlockExpr)
deriving DecidableEq, Repr, Inhabited

end Ownership.Listing

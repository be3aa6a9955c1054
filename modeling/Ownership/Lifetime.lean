import Ownership.Names
import Ownership.Settle
import Ownership.WellFormed

/-! # Lifetimes

A reference's lifetime is a set of lifetime names: the reference is good only while all of them
are, so the empty set is the static lifetime. A signature's bounds order the names by how long they
live; names that outlive another member add nothing to a set.

A reference parameter without a lifetime gets an anonymous one of its own.
-/

namespace Ownership

abbrev Lifetime := Names

namespace Lifetime

def static : Lifetime := ∅

/-- The name of the lifetime of an untagged reference parameter. -/
def anonymous (param : String) : String := "'_" ++ param

def render (lt : Lifetime) : String :=
  if lt.isEmpty then staticLifetime else " + ".intercalate lt.toList

/-- The lifetime of a reference parameter. -/
def ofParam? (types : TypeTable) (p : Param) : Except Fault (Option Lifetime) := do
  match ← types.fetch p.type with
  | .ref _ _ tag =>
    match tag with
    | none => return some {anonymous p.name}
    | some lt =>
      if lt == staticLifetime then return some static
      else return some {if lt.isEmpty then anonymous p.name else lt}
  | _ => return none

/-- The names that some parameter of the list depends on. -/
def ofParams (types : TypeTable) : List Param → Except Fault Names
  | [] => return ∅
  | p :: ps => do
    let lt ← ofParam? types p
    return (lt.getD ∅).union (← ofParams types ps)

/-- The lifetime that a returned reference has to reach. A return type without a lifetime borrows
from every reference parameter. -/
def promised? (types : TypeTable) (s : Signature) : Except Fault (Option Lifetime) :=
  match s.returns with
  | none => return none
  | some id => do
    match ← types.fetch id with
    | .ref _ _ (some lt) => if lt == staticLifetime then return some static else return some {lt}
    | .ref _ _ none => return some (← ofParams types s.params)
    | _ => return none

end Lifetime

/-- How long lifetime names live. `longer` gives the names that live at least as long as a name, by
the declared bounds; names of `staticLike` live for ever. -/
structure LifetimeOrder where
  params : Names
  staticLike : Names
  longer : NameMap Names

namespace LifetimeOrder

/-- What outlives the longer name of a bound also outlives the shorter. -/
def propagate (longer : NameMap Names) (bound : String × String) :
    NameMap Names :=
  longer.insert bound.2 ((longer.getD bound.2 ∅).union (longer.getD bound.1 ∅))

/-- The order of some names under bounds, each from the longer name to the shorter. -/
def ofBounds (names : List String) (bounds : List (String × String)) (staticLike : List String) :
    LifetimeOrder :=
  let params : Names := .ofList (names ++ bounds.flatMap fun (long, short) => [long, short])
  let start : NameMap Names := .ofList (params.toList.map fun p => (p, {p}))
  { params
    staticLike := .ofList staticLike
    longer := settle (bounds.foldl propagate) (params.size * params.size + 1) start }

def ofSignature (types : TypeTable) (s : Signature) : Except Fault LifetimeOrder := do
  let names ← Lifetime.ofParams types s.params
  let bounds := s.outlives.filter fun (long, short) =>
    long != staticLifetime && short != staticLifetime
  let staticLike := (s.outlives.filter fun (_, short) => short == staticLifetime).map Prod.fst
  return ofBounds (s.lifetimes ++ names.toList) bounds staticLike

/-- Whether a name is known to live at least as long as another. -/
def outlives (o : LifetimeOrder) (long short : String) : Bool :=
  long == short || long == staticLifetime || o.staticLike.contains long ||
    (o.longer.getD short ∅).contains long

/-- Whether a name lives for ever, and so adds nothing to a lifetime. -/
def isStatic (o : LifetimeOrder) (name : String) : Bool :=
  name == staticLifetime || o.staticLike.contains name

/-- Drops a name if another one that is still kept lives strictly shorter. -/
def prune (o : LifetimeOrder) (kept : Names) (name : String) : Names :=
  if kept.contains name && kept.toList.any fun other =>
      other != name && o.outlives name other && !o.outlives other name
  then kept.erase name else kept

/-- The members of a lifetime that bound it: neither static nor longer than another member. -/
def normalize (o : LifetimeOrder) (lt : Lifetime) : Lifetime :=
  let members := lt.filter fun name => !o.isStatic name
  members.toList.foldl o.prune members

/-- The lifetime of what is good while both are. -/
def meet (o : LifetimeOrder) (a b : Lifetime) : Lifetime := o.normalize (a.union b)

/-- Whether a reference with the first lifetime may stand where the second is promised: each name
it depends on outlives some name of the promise. -/
def satisfies (o : LifetimeOrder) (actual required : Lifetime) : Bool :=
  let actual := o.normalize actual
  let required := o.normalize required
  if required.isEmpty then actual.isEmpty
  else actual.toList.all fun p => required.toList.any fun r => o.outlives p r

end LifetimeOrder

end Ownership

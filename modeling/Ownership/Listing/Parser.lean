import Ownership.Listing.Token
import Ownership.Listing.Tree

/-! # The parser of listings

A parser takes the tokens it needs from the front of a list. It fails at the first token that cannot
go on what came before, and gives back the tokens from there on. The next token alone always decides
how to go on.
-/

namespace Ownership.Listing

abbrev Parser := StateT (List Token) (Except (List Token))

namespace Parser

variable {α : Type}

/-- The next token cannot go on. -/
def stuck : Parser α := do throw (← get)

def next? : Parser (Option TokenKind) := return (← get).head?.map Token.kind

def nextIs (kind : TokenKind) : Parser Bool := return (← next?) == some kind

/-- Takes the next token, which has to be of a kind. -/
def take (kind : TokenKind) : Parser Token := do
  match ← get with
  | t :: rest => if t.kind = kind then set rest; return t else stuck
  | [] => stuck

/-- Takes the next token if it is of a kind. -/
def accept (kind : TokenKind) : Parser Bool := do
  if ← nextIs kind then
    discard (take kind)
    return true
  else return false

def keyword (k : Keyword) : Parser Unit := discard (take (.keyword k))

def sign (s : Sign) : Parser Unit := discard (take (.sign s))

def word : Parser Word := return (fun t : Token => ⟨t.text, t.span⟩) (← take .name)

def name : Parser String := return (← take .name).text

def lifetime : Parser String := return (← take .lifetime).text

/-- Runs a parser if the next token is of a kind. -/
def optional (kind : TokenKind) (p : Parser α) : Parser (Option α) := do
  if ← nextIs kind then return some (← p) else return none

/-- Runs a parser as long as the next token is one that it starts with, at most `n` times. -/
def manyUpTo (starts : TokenKind → Bool) (p : Parser α) : Nat → Parser (List α)
  | 0 => return []
  | n + 1 => do
    if (← next?).any starts then return (← p) :: (← manyUpTo starts p n) else return []

/-- Runs a parser as long as the next token is one that it starts with. It takes a token each time,
so there are no more rounds than tokens. -/
def many (starts : TokenKind → Bool) (p : Parser α) : Parser (List α) := do
  manyUpTo starts p (← get).length

/-- Elements with a sign between them. -/
def separated (s : Sign) (p : Parser α) : Parser (List α) :=
  return (← p) :: (← many (· == .sign s) do sign s; p)

/-- Elements with commas between them and perhaps one behind, up to a closing sign, at most `n`. -/
def trailingUpTo (close : Sign) (p : Parser α) : Nat → Parser (List α)
  | 0 => return []
  | n + 1 => do
    if ← nextIs (.sign close) then return []
    else
      let a ← p
      if ← accept (.sign .comma) then return a :: (← trailingUpTo close p n) else return [a]

/-- Elements between an opening and a closing sign, with commas between them and perhaps one
behind. -/
def closedTrailing (opening close : Sign) (p : Parser α) : Parser (List α) := do
  sign opening
  let l ← trailingUpTo close p (← get).length
  sign close
  return l

/-- Elements between an opening and a closing sign, with commas between them. -/
def closed (opening close : Sign) (p : Parser α) : Parser (List α) := do
  sign opening
  let l ← if ← nextIs (.sign close) then pure [] else separated .comma p
  sign close
  return l

/-- The span from the first token of a list up to the last one before its rest. -/
def spanBetween (tokens rest : List Token) : Span :=
  match tokens.head?, (tokens.take (tokens.length - rest.length)).getLast? with
  | some first, some last =>
    { first.span with endLine := last.span.endLine, endColumn := last.span.endColumn }
  | _, _ => .unknown

/-- Runs a parser and gives the span of the tokens it takes. -/
def spanned (p : Parser α) : Parser (α × Span) := do
  let tokens ← get
  let a ← p
  return (a, spanBetween tokens (← get))

/-- A type that nests less deep than the bound. -/
def typeUpTo : Nat → Parser TypeExpr
  | 0 => stuck
  | n + 1 => do
    match ← next? with
    | some .name => return .named (← word)
    | some (.sign .openBracket) =>
      sign .openBracket
      let element ← typeUpTo n
      sign .closeBracket
      return .array element
    | some (.sign .ampersand) =>
      sign .ampersand
      let tag ← optional .lifetime lifetime
      let exclusive ← accept (.keyword .mutable)
      return .ref tag exclusive (← typeUpTo n)
    | _ => stuck

/-- A type. Each level of it takes a token. -/
def type : Parser TypeExpr := do typeUpTo (← get).length

def field : Parser (Word × TypeExpr) := do
  let w ← word
  sign .colon
  return (w, ← type)

def arm : Parser (Word × List TypeExpr) := do
  let w ← word
  if ← nextIs (.sign .openParen) then
    sign .openParen
    let payload ← separated .comma type
    sign .closeParen
    return (w, payload)
  else return (w, [])

def lifetimeParam : Parser LifetimeExpr := do
  let ((lt, bounds), span) ← spanned do
    let lt ← lifetime
    let bounds ← optional (.sign .colon) do sign .colon; separated .plus lifetime
    return (lt, bounds.getD [])
  return ⟨lt, bounds, span⟩

def generics : Parser (List LifetimeExpr) := do
  if ← nextIs (.sign .less) then
    sign .less
    let params ← separated .comma lifetimeParam
    sign .greater
    return params
  else return []

def param : Parser ParamExpr := do
  let mutable ← accept (.keyword .mutable)
  let x ← name
  sign .colon
  return ⟨mutable, x, ← type⟩

def signature : Parser SignatureExpr := do
  let (s, span) ← spanned do
    keyword .function
    let f ← name
    let gs ← generics
    let ps ← closed .openParen .closeParen param
    let ret ← optional (.sign .rightArrow) do sign .rightArrow; type
    return (f, gs, ps, ret)
  return ⟨s.1, s.2.1, s.2.2.1, s.2.2.2, span⟩

def scope : Parser ScopeExpr := do
  let ((s, parent), span) ← spanned do
    keyword .scope
    let s ← name
    let parent ← optional (.keyword .inside) do keyword .inside; name
    sign .semicolon
    return (s, parent)
  return ⟨s, parent, span⟩

/-- The source of a value, behind an equals sign. -/
def source : Parser (Option String) := optional (.sign .equals) do sign .equals; name

/-- The arguments bound to a lifetime in a call. -/
def lifetimeBinding : Parser (String × List String) := do
  let lt ← lifetime
  sign .equals
  let first ← name
  return (lt, first :: (← many (· == .name) name))

def callTo (dest : Option String) : Parser Statement := do
  keyword .call
  let function ← name
  let args ← closed .openParen .closeParen name
  let lifetimes ← optional (.keyword .binding) do keyword .binding; separated .comma lifetimeBinding
  return .op (.call { function, args, lifetimes := lifetimes.getD [], dest })

/-- A borrow or a call, behind the name that gets its result. -/
def definition : Parser Statement := do
  let dest ← name
  sign .equals
  if ← nextIs (.keyword .borrow) then
    keyword .borrow
    let exclusive ← accept (.keyword .mutable)
    return .op (.borrow (← name) (if exclusive then .exclusive else .shared) dest)
  else callTo (some dest)

def declaration : Parser Statement := do
  keyword .declare
  let mutable ← accept (.keyword .mutable)
  let x ← name
  sign .colon
  let t ← type
  return .declare mutable x t (← optional (.keyword .inside) do keyword .inside; name)

/-- The tokens that a statement starts with. -/
def startsStatement : TokenKind → Bool
  | .name => true
  | .keyword k =>
    [Keyword.declare, .init, .move, .copy, .use, .write, .call, .endScope].contains k
  | _ => false

def statementBody : Parser Statement := do
  match ← next? with
  | some .name => definition
  | some (.keyword .declare) => declaration
  | some (.keyword .init) => do keyword .init; return .op (.init (← name) (← source))
  | some (.keyword .move) => do
    keyword .move
    let dest ← name
    sign .leftArrow
    return .op (.move dest (← name))
  | some (.keyword .copy) => do
    keyword .copy
    let dest ← name
    sign .leftArrow
    return .op (.copy dest (← name))
  | some (.keyword .use) => do keyword .use; return .op (.use (← name))
  | some (.keyword .write) => do keyword .write; return .op (.write (← name) (← source))
  | some (.keyword .call) => callTo none
  | some (.keyword .endScope) => do keyword .endScope; return .op (.endScope (← name))
  | _ => stuck

def statement : Parser StatementExpr := do
  let (s, span) ← spanned do
    let s ← statementBody
    sign .semicolon
    return s
  return ⟨s, span⟩

def terminator : Parser Terminator := do
  match ← next? with
  | some (.keyword .jump) => do keyword .jump; return .jump (← name)
  | some (.keyword .branch) => do
    keyword .branch
    let first ← name
    let second ← name
    match ← optional .name name with
    | some third => return .branch second third (some first)
    | none => return .branch first second none
  | some (.keyword .ret) => do keyword .ret; return .ret (← optional .name name)
  | _ => stuck

def ending : Parser Ending := do
  let (t, span) ← spanned do
    let t ← terminator
    sign .semicolon
    return t
  return ⟨t, span⟩

def block : Parser BlockExpr := do
  let ((label, body, ending), span) ← spanned do
    let label ← name
    sign .colon
    let body ← many startsStatement statement
    return (label, body, ← ending)
  return ⟨label, body, ending, span⟩

def structItem : Parser Item := do
  keyword .struct
  let w ← word
  let finalizer ← accept (.keyword .drop)
  return .struct w finalizer (← closedTrailing .openBrace .closeBrace field)

def variantItem : Parser Item := do
  keyword .variant
  let w ← word
  return .variant w (← closedTrailing .openBrace .closeBrace arm)

def externalItem : Parser Item := do
  keyword .external
  let s ← signature
  discard (accept (.sign .semicolon))
  return .external s

def functionItem : Parser Item := do
  let s ← signature
  sign .openBrace
  let scopes ← many (· == .keyword .scope) scope
  let first ← block
  let blocks ← many (· == .name) block
  sign .closeBrace
  return .function s scopes (first :: blocks)

def item : Parser Item := do
  match ← next? with
  | some (.keyword .struct) => structItem
  | some (.keyword .variant) => variantItem
  | some (.keyword .external) => externalItem
  | some (.keyword .function) => functionItem
  | _ => stuck

/-- All items of a listing. Nothing but an item may follow an item. -/
def items : Parser (List Item) := many (fun _ => true) item

end Parser

end Ownership.Listing

import Ownership.Span

/-! # Tokens of a listing

Reserved words, signs, names and lifetimes, each with where it stands. Blanks and comments lie
between tokens and are dropped. The longest token that fits is taken.
-/

namespace Ownership.Listing

/-- The words that cannot be names. -/
inductive Keyword
  | struct
  | variant
  | drop
  | external
  | function
  | scope
  | inside
  | declare
  | mutable
  | init
  | move
  | copy
  | borrow
  | use
  | write
  | call
  | binding
  | endScope
  | jump
  | branch
  | ret
deriving DecidableEq, Repr, Inhabited

namespace Keyword

def all : List Keyword :=
  [struct, variant, drop, external, function, scope, inside, declare, mutable, init, move, copy,
    borrow, use, write, call, binding, endScope, jump, branch, ret]

def text : Keyword → String
  | struct => "struct"
  | variant => "variant"
  | drop => "drop"
  | external => "extern"
  | function => "fn"
  | scope => "scope"
  | inside => "in"
  | declare => "declare"
  | mutable => "mut"
  | init => "init"
  | move => "move"
  | copy => "copy"
  | borrow => "borrow"
  | use => "use"
  | write => "write"
  | call => "call"
  | binding => "with"
  | endScope => "end"
  | jump => "jump"
  | branch => "branch"
  | ret => "return"

def ofText? (s : String) : Option Keyword := all.find? fun k => k.text == s

end Keyword

inductive Sign
  | openBrace
  | closeBrace
  | openParen
  | closeParen
  | openBracket
  | closeBracket
  | less
  | greater
  | colon
  | semicolon
  | comma
  | equals
  | ampersand
  | plus
  | rightArrow
  | leftArrow
deriving DecidableEq, Repr, Inhabited

inductive TokenKind
  | keyword (k : Keyword)
  | sign (s : Sign)
  | name
  | lifetime
deriving DecidableEq, Repr, Inhabited

structure Token where
  kind : TokenKind
  text : String
  span : Span
deriving DecidableEq, Repr, Inhabited

/-- A line and a column, both counted from one; columns count characters. -/
structure Position where
  line : Nat := 1
  column : Nat := 1
deriving DecidableEq, Repr, Inhabited

/-- The position behind a character. Only a line feed starts a new line. -/
def Position.advance (p : Position) (c : Char) : Position :=
  if c = '\n' then ⟨p.line + 1, 1⟩ else ⟨p.line, p.column + 1⟩

def Position.span (start stop : Position) (file : Option String) : Span :=
  { file, line := some start.line, column := some start.column, endLine := some stop.line,
    endColumn := some stop.column }

def Position.point (p : Position) (file : Option String) : Span :=
  { file, line := some p.line, column := some p.column }

def isBlank (c : Char) : Bool := c = ' ' || c = '\t' || c = '\x0c' || c = '\r' || c = '\n'

def isNameStart (c : Char) : Bool := c.isAlpha || c = '_'

def isNameChar (c : Char) : Bool := c.isAlphanum || c = '_'

/-- The sign that one character makes. -/
def signOf? (c : Char) : Option Sign :=
  if c = '\x7b' then some .openBrace
  else if c = '\x7d' then some .closeBrace
  else if c = '(' then some .openParen
  else if c = ')' then some .closeParen
  else if c = '[' then some .openBracket
  else if c = ']' then some .closeBracket
  else if c = '<' then some .less
  else if c = '>' then some .greater
  else if c = ':' then some .colon
  else if c = ';' then some .semicolon
  else if c = ',' then some .comma
  else if c = '=' then some .equals
  else if c = '&' then some .ampersand
  else if c = '+' then some .plus
  else none

/-- What a text starts with: something between tokens, or a token of a kind. -/
inductive Piece
  | gap
  | token (kind : TokenKind)
deriving DecidableEq, Repr, Inhabited

/-- The kind of a word: reserved, or a name. -/
def wordKind (cs : List Char) : TokenKind :=
  match Keyword.ofText? (String.ofList cs) with
  | some k => .keyword k
  | none => .name

/-- The first piece of a text, with its characters and the text behind it. -/
def munch? : List Char → Option (Piece × List Char × List Char)
  | [] => none
  | c :: cs =>
    if isBlank c then some (.gap, c :: cs.takeWhile isBlank, cs.dropWhile isBlank)
    else if c = '#' ∨ c = '/' ∧ cs.head? = some '/' then
      some (.gap, c :: cs.takeWhile (· != '\n'), cs.dropWhile (· != '\n'))
    else if isNameStart c then
      let word := c :: cs.takeWhile isNameChar
      some (.token (wordKind word), word, cs.dropWhile isNameChar)
    else if c = '\'' then
      match cs with
      | d :: _ =>
        if isNameStart d then
          some (.token .lifetime, c :: cs.takeWhile isNameChar, cs.dropWhile isNameChar)
        else none
      | [] => none
    else if c = '-' ∧ cs.head? = some '>'
      then some (.token (.sign .rightArrow), ['-', '>'], cs.tail)
    else if c = '<' ∧ cs.head? = some '-' then some (.token (.sign .leftArrow), ['<', '-'], cs.tail)
    else (signOf? c).map fun s => (.token (.sign s), [c], cs)

/-- Why a text has no further tokens: it is at its end, or no token starts with a character. -/
inductive Stop
  | finished
  | badCharacter (c : Char) (position : Position)
deriving DecidableEq, Repr, Inhabited

/-- The tokens of a text, as far as it can be split. -/
structure Scan where
  tokens : List Token
  stop : Stop
deriving DecidableEq, Repr, Inhabited

/-- Splits a text of at most `n` characters that starts at a position. -/
def scanFrom (file : Option String) : Nat → Position → List Char → Scan
  | _, _, [] => ⟨[], .finished⟩
  | 0, p, c :: _ => ⟨[], .badCharacter c p⟩
  | n + 1, p, c :: cs =>
    match munch? (c :: cs) with
    | none => ⟨[], .badCharacter c p⟩
    | some (piece, taken, rest) =>
      let stop := taken.foldl Position.advance p
      let later := scanFrom file n stop rest
      match piece with
      | .gap => later
      | .token kind =>
        { later with tokens := ⟨kind, String.ofList taken, p.span stop file⟩ :: later.tokens }

/-- The tokens of a listing. -/
def scan (source : String) (file : Option String) : Scan :=
  scanFrom file source.toList.length {} source.toList

end Ownership.Listing

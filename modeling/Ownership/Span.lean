/-! # Spans

Stretches of source text, known as far as they are known.
-/

namespace Ownership

structure Span where
  file : Option String := none
  line : Option Int := none
  column : Option Int := none
  endLine : Option Int := none
  endColumn : Option Int := none
deriving DecidableEq, Repr, Inhabited

namespace Span

/-- The span of something whose place in the source is not known. -/
def unknown : Span := {}

/-- A span that is not given names the file alone. -/
def orFile (span : Option Span) (file : Option String) : Span := span.getD { file := file }

/-- Where the span starts. -/
def start (s : Span) : Span := { file := s.file, line := s.line, column := s.column }

def isKnown (s : Span) : Bool := s.line.isSome

/-- A coordinate, or a question mark for one that is not known. -/
def coordinate : Option Int → String
  | some n => toString n
  | none => "?"

/-- The file name, or `fallback` if there is none or it is empty. -/
def fileOr (s : Span) (fallback : String) : String :=
  match s.file with
  | some f => if f.isEmpty then fallback else f
  | none => fallback

/-- File, line and column, divided by colons. -/
def render (s : Span) : String :=
  s.fileOr "<input>" ++ ":" ++ coordinate s.line ++ ":" ++ coordinate s.column

end Span

end Ownership

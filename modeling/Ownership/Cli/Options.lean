import Ownership.Cli.Path
import Ownership.Text.Integer

/-! # Options of the command line

Options start with a dash. A long option may be cut to where it is still the only one, and takes its
value behind an equals sign; short options may be joined, and the equals sign behind the first of
them may be left out. What stands between options are the sources, all in one place. Two dashes end
the options.
-/

namespace Ownership.Cli

inductive Switch
  | help
  | json
  | jobs
  | lexicalRegions
  | noAutoBorrow
  | verbose
deriving DecidableEq, Repr, Inhabited

namespace Switch

/-- All spellings of the switches. -/
def spellings : List (String × Switch) :=
  [("-h", help), ("--help", help), ("--json", json), ("-j", jobs), ("--jobs", jobs),
    ("--lexical-regions", lexicalRegions), ("--no-auto-borrow", noAutoBorrow), ("-v", verbose),
    ("--verbose", verbose)]

def ofText? (s : String) : Option Switch := spellings.lookup s

/-- Only the number of jobs has a value. -/
def takesValue : Switch → Bool
  | jobs => true
  | _ => false

end Switch

/-- The form of a command line. -/
def usage : String :=
  "usage: borrowck [-h] [--json] [-j JOBS] [--lexical-regions] [--no-auto-borrow] [-v] source [source ...]"

/-- Why the command line is not followed. -/
inductive Exit
  | help
  | usage
deriving DecidableEq, Repr, Inhabited

def Exit.code : Exit → Nat
  | help => 0
  | usage => 2

/-- An argument: a plain one, the two dashes, some switches with what comes of the last of them, an
option that does not exist, or a switch that is followed by what it does not take. -/
inductive Argument
  | plain (text : String)
  | dashes
  | switches (set : List Switch)
  | valued (set : List Switch) (last : Switch) (value : String)
  | unvalued (set : List Switch) (last : Switch)
  | strange
  | refused
deriving DecidableEq, Repr, Inhabited

namespace Argument

/-- A switch without a value in its own argument. -/
def bare (set : List Switch) (s : Switch) : Argument :=
  if s.takesValue then .unvalued set s else .switches (set ++ [s])

/-- What follows a short switch in its argument: its value, or more short switches. -/
def joined (set : List Switch) (s : Switch) : List Char → Argument
  | [] => if s.takesValue then .valued set s "" else .refused
  | c :: rest =>
    if s.takesValue then .valued set s (String.ofList (c :: rest))
    else
      match Switch.ofText? (String.ofList ['-', c]) with
      | none => .refused
      | some next =>
        match rest with
        | [] => bare (set ++ [s]) next
        | d :: more => joined (set ++ [s]) next (d :: more)

/-- A long switch with a value behind an equals sign. -/
def long (s : Switch) : Option String → Argument
  | none => bare [] s
  | some value => if s.takesValue then .valued [] s value else .refused

/-- Whether a text is a negative number, with or without a fraction. One line feed may follow. -/
def isNegativeNumber (cs : List Char) : Bool :=
  let isDigit := fun c => (digitValue? c).isSome
  let cs := if cs.getLast? = some '\n' then cs.dropLast else cs
  match cs with
  | '-' :: number =>
    match number.dropWhile isDigit with
    | [] => !number.isEmpty
    | '.' :: fraction => !fraction.isEmpty && fraction.all isDigit
    | _ => false
  | _ => false

/-- The text before the first equals sign, and the text behind it if there is one. -/
def splitValue (s : String) : String × Option String :=
  let cs := s.toList
  match cs.dropWhile (· != '=') with
  | [] => (s, none)
  | _ :: value => (String.ofList (cs.takeWhile (· != '=')), some (String.ofList value))

/-- An argument that is no known switch as it stands. -/
def ofOther (s : String) : Argument :=
  if isNegativeNumber s.toList || s.contains ' ' then .plain s else .strange

/-- A long option, perhaps cut short. -/
def ofLong (s : String) : Except Exit Argument :=
  let (spelling, value) := splitValue s
  match Switch.spellings.filter fun (full, _) => spelling.isPrefixOf full with
  | [] => .ok (ofOther s)
  | [(_, switch)] => .ok (long switch value)
  | _ => .error .usage

/-- Some short options in one argument. -/
def ofShort (s : String) : Argument :=
  match Switch.ofText? (String.ofList (s.toList.take 2)) with
  | none => ofOther s
  | some switch => joined [] switch (s.toList.drop 2)

/-- An argument before the end of options. -/
def ofString (s : String) : Except Exit Argument :=
  match s.toList with
  | '-' :: second :: _ =>
    match Switch.ofText? s with
    | some switch => .ok (bare [] switch)
    | none =>
      match splitValue s with
      | (spelling, some value) =>
        match Switch.ofText? spelling with
        | some switch =>
          .ok (if second = '-' then long switch value else joined [] switch value.toList)
        | none => if second = '-' then ofLong s else .ok (ofShort s)
      | (_, none) => if second = '-' then ofLong s else .ok (ofShort s)
  | _ => .ok (.plain s)

/-- All arguments; behind two dashes all are plain. -/
def ofStrings : List String → Except Exit (List Argument)
  | [] => .ok []
  | s :: rest =>
    if s = "--" then .ok (.dashes :: rest.map .plain)
    else do
      let a ← ofString s
      return a :: (← ofStrings rest)

end Argument

/-- What a command line asks for. The number of jobs is missing if two dashes stand in its place. -/
structure Options where
  sources : List Path := []
  json : Bool := false
  jobs : Option Int := some 1
  lexicalRegions : Bool := false
  autoBorrow : Bool := true
  verbose : Bool := false
deriving DecidableEq, Repr, Inhabited

namespace Options

/-- The options read so far. `stray` says that there was an argument without a place. -/
structure Reading where
  options : Options := {}
  stray : Bool := false
deriving DecidableEq, Repr, Inhabited

namespace Reading

def apply (r : Reading) : Switch → Except Exit Reading
  | .help => .error .help
  | .json => .ok { r with options.json := true }
  | .lexicalRegions => .ok { r with options.lexicalRegions := true }
  | .noAutoBorrow => .ok { r with options.autoBorrow := false }
  | .verbose => .ok { r with options.verbose := true }
  | .jobs => .ok r

/-- Applies a switch with a value: an integer, or two dashes for none. -/
def applyValue (r : Reading) (s : Switch) (value : String) : Except Exit Reading := do
  let r ← r.apply s
  if value = "--" then .ok { r with options.jobs := none }
  else
    match integer? value with
    | some n => .ok { r with options.jobs := some n }
    | none => .error .usage

/-- A run of plain arguments: the first run has the sources, and any other has no place. The first
two dashes of a run do not count. -/
def run (r : Reading) (texts : List String) : Reading :=
  match texts.erase "--" with
  | [] => if texts.isEmpty then r else { r with stray := true }
  | sources =>
    if r.options.sources.isEmpty then { r with options.sources := sources.map Path.ofString }
    else { r with stray := true }

end Reading

/-- Reads arguments in order; `waiting` is the run of plain arguments before them. -/
def readFrom : List Argument → List String → Reading → Except Exit Reading
  | [], waiting, r => .ok (r.run waiting)
  | .plain text :: rest, waiting, r => readFrom rest (waiting ++ [text]) r
  | .dashes :: rest, waiting, r => readFrom rest (waiting ++ ["--"]) r
  | .switches set :: rest, waiting, r => do
    readFrom rest [] (← set.foldlM Reading.apply (r.run waiting))
  | .valued set last value :: rest, waiting, r => do
    let r ← set.foldlM Reading.apply (r.run waiting)
    readFrom rest [] (← r.applyValue last value)
  | .unvalued set last :: .plain value :: rest, waiting, r => do
    let r ← set.foldlM Reading.apply (r.run waiting)
    readFrom rest [] (← r.applyValue last value)
  | .unvalued _ _ :: _, _, _ => .error .usage
  | .refused :: _, _, _ => .error .usage
  | .strange :: rest, waiting, r => readFrom rest [] { r.run waiting with stray := true }

/-- The options of a command line. It needs a source, and every argument a place. -/
def ofArguments (argv : List String) : Except Exit Options := do
  let r ← readFrom (← Argument.ofStrings argv) [] {}
  if r.stray || r.options.sources.isEmpty then .error .usage else .ok r.options

end Options

end Ownership.Cli

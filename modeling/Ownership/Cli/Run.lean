import Ownership.Cli.Options
import Ownership.Cli.Render
import Ownership.Listing.Build

/-! # The command line

Each source is read, parsed and verified. Diagnostics go to the error output as text, or all
together to the standard output as JSON. The exit code is one if any source is refused.
-/

namespace Ownership.Cli

/-- What a run leaves behind: its exit code and the lines of both outputs. -/
structure Result where
  exitCode : Nat := 0
  out : List String := []
  err : List String := []
deriving DecidableEq, Repr, Inhabited

/-- Why a run has no result. -/
inductive Failure
  | exit (reason : Exit)
  | nullInPath
  | clash (clash : NameClash)
  | noJobs
  | fault (fault : Fault)
deriving DecidableEq, Repr

def Failure.message : Failure → String
  | exit _ => usage
  | nullInPath => "embedded null byte"
  | clash c => c.message
  | noJobs => "'<=' not supported between instances of 'list' and 'int'"
  | fault _ => "internal error"

/-- What one source adds to a run. -/
structure Part where
  failed : Bool := false
  err : List String := []
  entries : List Json := []

/-- Carriage returns, alone or before a line feed, become line feeds. -/
def unifyNewlines : List Char → List Char
  | '\r' :: '\n' :: rest => '\n' :: unifyNewlines rest
  | '\r' :: rest => '\n' :: unifyNewlines rest
  | c :: rest => c :: unifyNewlines rest
  | [] => []

/-- A source that cannot be read. -/
def unreadable (o : Options) (source : String) (e : FileError) : Part :=
  let message := s!"cannot read {source}: " ++ e.message
  { failed := true
    err := if o.json then [] else [source ++ ": error: " ++ message]
    entries := [failureJson source (failure message source)] }

/-- A source that does not parse. -/
def unparsable (o : Options) (source : String) (problem : Listing.Problem) (span : Span) : Part :=
  { failed := true
    err := if o.json then [] else [span.render ++ ": error: " ++ problem.message]
    entries := [failureJson source (failure problem.message (span.fileOr source) ++
      [("line", .optional .int span.line), ("column", .optional .int span.column)])] }

/-- A source whose program has been verified by so many jobs. -/
def verified (o : Options) (source : String) (jobs : Int) (p : Program)
    (r : ProgramReport) : Part :=
  let functions := p.functions.size
  let externs := p.externs.size
  let log := if o.verbose then
      logLine "borrowck.borrowck" s!"{source}: {functions} function(s), {externs} extern(s)" ::
        programLog r jobs
    else []
  { failed := !r.accepted
    err := log ++ if o.json then [] else r.diagnostics.flatMap fun d => d.lines source
    entries := r.functions.map (functionJson source) }

/-- What a source with a text adds to a run. Verification needs the number of jobs. -/
def check (o : Options) (source text : String) : Except Failure Part :=
  match Listing.parse (String.ofList (unifyNewlines text.toList)) source with
  | .error (.at problem span) => .ok (unparsable o source problem span)
  | .error (.clash c) => .error (.clash c)
  | .ok p =>
    match o.jobs with
    | none => .error .noJobs
    | some jobs =>
      match p.verify (if o.lexicalRegions then .lexical else .lastUse) o.autoBorrow with
      | .ok r => .ok (verified o source jobs p r)
      | .error e => .error (.fault e)

/-- The result of a run from what its sources add. -/
def result (o : Options) (parts : List Part) : Result :=
  let code := if parts.any Part.failed then 1 else 0
  { exitCode := code
    out := if o.json then
        [Json.render (.obj [("exit_code", .int code),
          ("functions", .arr (parts.flatMap Part.entries))])]
      else []
    err := parts.flatMap Part.err }

/-- Runs a command line; `read` reads the file at a path. -/
def run {m : Type → Type} [Monad m] (read : Path → m (Except FileError String))
    (argv : List String) : m (Except Failure Result) := do
  match Options.ofArguments argv with
  | .error reason => return .error (.exit reason)
  | .ok o =>
    let texts ← o.sources.mapM fun path => return (path, ← read path)
    return do
      let parts ← texts.mapM fun (path, text) =>
        if path.hasNull then throw .nullInPath
        else
          match text with
          | .error e => return unreadable o path.text e
          | .ok text => check o path.text text
      return result o parts

end Ownership.Cli

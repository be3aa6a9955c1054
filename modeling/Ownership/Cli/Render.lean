import Ownership.Cli.Path
import Ownership.Listing.Error
import Ownership.Text.Json
import Ownership.Verify

/-! # Output of the command line

Diagnostics as JSON and as lines of text, and the lines that tell how the work goes on.
-/

namespace Ownership

namespace Location

def json (l : Location) : Json :=
  .obj [("function", .str l.function), ("block", .str l.block), ("index", .int l.index)]

end Location

namespace Diagnostic

def relatedJson (r : RelatedLocation) : Json :=
  .obj [("message", .str r.message), ("location", .optional Location.json r.location),
    ("line", .optional .int r.span.line), ("column", .optional .int r.span.column)]

/-- The members of a diagnostic; `file` stands for one that the diagnostic does not name. -/
def jsonIn (d : Diagnostic) (file : Option String) : Json :=
  .obj [("kind", .str d.kind.code), ("message", .str d.message), ("severity", .str d.severity),
    ("phase", .str d.phase), ("subject", .optional .str d.subject),
    ("location", .optional Location.json d.location),
    ("file", .optional .str (d.span.file.or file)),
    ("line", .optional .int d.span.line), ("column", .optional .int d.span.column),
    ("related", .arr (d.related.map relatedJson))]

def json (d : Diagnostic) : Json := d.jsonIn none

/-- A program point at the end of a line. -/
def point : Option Location → String
  | some l => s!" [{l}]"
  | none => ""

/-- A diagnostic as lines: the error itself, and a note for each related point. -/
def lines (d : Diagnostic) (source : String) : List String :=
  let file := d.span.fileOr source
  let at_ := fun (s : Span) =>
    file ++ ":" ++ Span.coordinate s.line ++ ":" ++ Span.coordinate s.column
  (at_ d.span ++ ": " ++ d.severity ++ ": " ++ d.kind.code ++ ": " ++ d.message ++
    point d.location) ::
    d.related.map fun r => at_ r.span ++ ": note: " ++ r.message ++ point r.location

end Diagnostic

namespace Cli

/-- A line that tells how the work goes on. -/
def logLine (module text : String) : String := s!"DEBUG {module}: {text}"

/-- What the check of a function tells. -/
def functionLog (r : FunctionReport) : List String :=
  let line := logLine "borrowck.borrow_checker_pass"
  match r.outcome with
  | .malformed problem => [line (r.name ++ ": malformed: " ++ problem.defect.message)]
  | .analysed visits blocks ds =>
    let verdict := if ds.isEmpty then "accepted" else "rejected"
    let name := r.name
    let count := ds.length
    [line s!"{name}: fixed point after {visits} block visit(s) over {blocks} block(s)",
      line s!"{name}: {verdict} after {visits} block visit(s), {count} diagnostic(s)"]

/-- What the verification of a program tells. Functions that are checked side by side tell
nothing. -/
def programLog (r : ProgramReport) (jobs : Int) : List String :=
  let line := logLine "borrowck.batch"
  let count := r.functions.length
  let rejected := r.rejected.length
  let checks := if jobs ≤ 1 || count ≤ 1 then r.functions.flatMap functionLog
    else [line s!"verifying {count} function(s) on {jobs} worker(s)"]
  checks ++ [line s!"{count} function(s) verified, {rejected} rejected"]

/-- The entry of a function in the JSON report. -/
def functionJson (source : String) (r : FunctionReport) : Json :=
  .obj [("file", .str source), ("function", .str r.name), ("accepted", .bool r.accepted),
    ("diagnostics", .arr (r.diagnostics.map fun d => d.jsonIn source))]

/-- The entry of a source that does not come to be checked. -/
def failureJson (source : String) (diagnostic : List (String × Json)) : Json :=
  .obj [("file", .str source), ("function", .null), ("accepted", .bool false),
    ("diagnostics", .arr [.obj diagnostic])]

/-- The members common to all failures of a source. -/
def failure (message file : String) : List (String × Json) :=
  [("phase", .str "parser"), ("kind", .null), ("message", .str message), ("severity", .str "error"),
    ("file", .str file)]

end Cli

end Ownership

import Ownership.Cli.Run

/-! # The program

Checks the listings named on the command line.
-/

namespace Ownership.Main

open Ownership.Cli

/-- The error of a failed read. The number of an error comes as it is or negated. -/
def fileError : IO.Error → FileError
  | .inappropriateType _ code _ => if code = 20 ∨ code = -20 then .notDirectory else .isDirectory
  | .invalidArgument _ code _ => if code = 36 ∨ code = -36 then .nameTooLong else .notFound
  | _ => .notFound

def readSource (path : Path) : IO (Except FileError String) := do
  try return .ok (← IO.FS.readFile path.text)
  catch e => return .error (fileError e)

end Ownership.Main

open Ownership Ownership.Cli Ownership.Main in
def main (argv : List String) : IO UInt32 := do
  match ← run readSource argv with
  | .ok r =>
    r.err.forM fun line => IO.eprintln line
    r.out.forM fun line => IO.println line
    return r.exitCode.toUInt32
  | .error (.exit .help) =>
    IO.println usage
    return Exit.help.code.toUInt32
  | .error (.exit .usage) =>
    IO.eprintln usage
    return Exit.usage.code.toUInt32
  | .error e =>
    IO.eprintln e.message
    return 1

import Conformance.CommandLine

/-!
# The program

Reads the files that the arguments name, does the work and prints what came out of it.
-/

namespace Conformance

/-- The text of a file of the system, or why there is none. -/
def readFile (path : String) : IO (Except ReadError String) := do
  try
    match String.fromUTF8? (← IO.FS.readBinFile path) with
    | some text => return .ok text
    | none => return .error .notText
  catch
    | .noFileOrDirectory .. => return .error .notFound
    | e => return .error (.other (toString e))

/-- The texts of several files, as a reader of these files. -/
def readFiles (paths : List String) : IO FileReader := do
  let texts ← paths.mapM fun path => return (path, ← readFile path)
  return fun path => (texts.lookup path).getD (.error .notFound)

end Conformance

open Conformance

/-- Runs the program on its arguments. -/
def main (args : List String) : IO UInt32 := do
  let files := ((Command.ofArgs? args).map Command.files).getD []
  let outcome := Command.runArgs (← readFiles files) args
  (← IO.getStdout).putStr outcome.stdout
  (← IO.getStderr).putStr outcome.stderr
  return outcome.code.toUInt32

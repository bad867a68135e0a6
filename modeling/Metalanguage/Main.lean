import Metalanguage.CommandLine.Run

/-!
# Main — the program

Access to the real file system, and the writing of an outcome.
-/

namespace Metalanguage

/-- The real file system, with paths that start from `directory`. -/
def FileAccess.real (directory : String → IO (Option (List String))) : FileAccess IO where
  read? path := do
    try
      return some (← IO.FS.readFile path)
    catch _ => return none
  isDirectory path := return (← directory path).isSome
  entries path := return (← directory path).getD []

/-- The names of the entries of a directory; `none` if the path names none. -/
def listDirectory (path : String) : IO (Option (List String)) := do
  try
    let place := (← IO.currentDir) / path
    let entries ← place.readDir
    return some (entries.toList.map (·.fileName))
  catch _ => return none

end Metalanguage

open Metalanguage in
/-- Runs the program. -/
def main (arguments : List String) : IO UInt32 := do
  let environment ← IO.getEnv "IEML_DICTIONARY"
  let invocation := Invocation.ofArguments environment arguments
  let outcome ← invocation.perform (.real listDirectory)
  IO.print outcome.stdout
  IO.eprint outcome.stderr
  return UInt32.ofNat outcome.exitCode

import SparcBackend.CommandLine.Execution

/-!
Executes a command on the disk, prints what it has to print and reports how it ended.
-/
namespace SparcBackend.CommandLine

/-- Runs an action and gives the reason of a failure as text. -/
def attempt {α : Type} (action : IO α) : IO (Except String α) := do
  try
    return .ok (← action)
  catch e =>
    return .error (toString e)

/-- The files on the disk. -/
def disk : Files IO where
  read path := attempt (IO.FS.readFile path)
  write path contents := attempt (IO.FS.writeFile path contents)

end SparcBackend.CommandLine

/-- Compiles programs in tree form to SPARC assembly. -/
def main (arguments : List String) : IO UInt32 := do
  let outcome ← SparcBackend.CommandLine.execute SparcBackend.CommandLine.disk arguments
  IO.print outcome.output
  IO.eprint outcome.errors
  return outcome.ending.status

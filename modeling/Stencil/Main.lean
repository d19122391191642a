import Stencil.Command.Run

/-!
# The program

Runs the command line on the files of the system.
-/

namespace Stencil

/-- Whether an action of the system succeeds. -/
def succeeds (action : IO Unit) : IO Bool := do
  try
    action
    return true
  catch _ =>
    return false

instance : FileStore IO where
  readText? path := do
    try
      return some (← IO.FS.readFile path)
    catch _ =>
      return none
  createDirs path := succeeds (IO.FS.createDirAll path)
  writeText path text := succeeds (IO.FS.writeFile path text)

/-- What the user is told about a run that did not succeed. -/
def Command.Outcome.complaint (o : Command.Outcome) : String :=
  match o.failure with
  | some failure =>
    "Error: " ++ failure.message ++ "\n"
      ++ (failure.cause?.map fun cause => "\nCaused by:\n    " ++ cause ++ "\n").getD ""
  | none =>
    if o.exitCode = 2 then
      "usage: skein [--config PATH] [-v] (compile INPUT [--out PATH] | expr TEXT [--tree] "
        ++ "| text TEXT | directive NAME VALUE)\n"
    else ""

end Stencil

def main (args : List String) : IO UInt32 := do
  let outcome ← (Stencil.Command.run args : IO Stencil.Command.Outcome)
  IO.print outcome.stdout
  IO.eprint outcome.complaint
  return outcome.exitCode

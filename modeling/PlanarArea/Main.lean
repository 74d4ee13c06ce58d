import PlanarArea.Command.Run

/-!
The command line program.
-/
namespace PlanarArea

def usage : String :=
  "usage: planar-area [--log-level LEVEL] eval --scene PATH --expr TEXT [--curve-points N]
         [--half-plane-extent X] | tokens --expr TEXT [--json] | parse --expr TEXT"

/-- The text of a file, none if it cannot be read. -/
def readText (path : String) : IO (Option String) := do
  try
    return some (← IO.FS.readFile path)
  catch _ =>
    return none

end PlanarArea

open PlanarArea

def main (args : List String) : IO UInt32 := do
  match Command.ofArgs? args with
  | none =>
    IO.eprintln usage
    return 2
  | some command =>
    let file ← match command.path with
      | some path => readText path
      | none => pure none
    match command.run file with
    | .ok text =>
      IO.println text
      return 0
    | .error failure =>
      IO.eprintln ("Error: " ++ failure.message)
      return 1

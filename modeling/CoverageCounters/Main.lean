import CoverageCounters.CommandLine.Run
import CoverageCounters.Json.Parser
import CoverageCounters.World.Snapshot

/-!
The program. The files to work on, together with what a parser of the language made of them, are
described in JSON on the input; the arguments are those of the command line.
-/

namespace CoverageCounters.CommandLine

/-- The deepest nesting of a description that is read. -/
def descriptionDepth : Nat := 100000

/-- The file that a run has written, and its text. -/
def Result.written? (r : Result) (arguments : List String) : Option (String × String) :=
  match r.code, CommandLine.parse arguments with
  | 0, some (.instrument c) => do
    let path ← c.output
    return (path,← r.world.read? path)
  | _, _ => none

end CoverageCounters.CommandLine

open CoverageCounters

def main (arguments : List String) : IO UInt32 := do
  let text ← (← IO.getStdin).readToEnd
  let described := (Json.parseWithin? CommandLine.descriptionDepth text).getD .null
  let names := (Path.segments (← IO.currentDir).toString).filter (!Path.isIdle ·)
  let world := Snapshot.world (names.map .mk) described .empty
  let r := CommandLine.run world (Snapshot.fileParser described) arguments
  IO.print r.outputText
  IO.eprint (CommandLine.textOfLines r.errors)
  if let some (path,document) := r.written? arguments then
    IO.FS.writeFile path document
  return r.code.toUInt32

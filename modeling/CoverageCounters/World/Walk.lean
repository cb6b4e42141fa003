import CoverageCounters.Error
import CoverageCounters.Source.Flavor
import CoverageCounters.World.Basic

/-!
Finding the sources below a path. Links are not followed, and hidden directories, installed packages
and coverage output are not entered.
-/

namespace CoverageCounters

inductive WalkError where
  | missing (path : OsText)
  | directory (path : OsText)
  | metadata (path : OsText)
  /-- The list of a directory breaks off. -/
  | entry
  deriving DecidableEq, Repr

namespace WalkError

def chain : WalkError → List Message
  | missing path => [.own ("path does not exist: " ++ path.lossy)]
  | directory path => [.own ("failed to read directory: " ++ path.lossy),.io]
  | metadata path => [.own ("failed to read metadata: " ++ path.lossy),.io]
  | entry => [.io]

end WalkError

def isSkippedText (name : String) : Bool :=
  name.toList.head? = some '.' || name = "node_modules" || name = "coverage"

/-- A directory whose name is no text is not left out. -/
def isSkippedDirectory (name : OsText) : Bool := name.text?.any isSkippedText

/-- A file whose name is no text is not a source. -/
def isSourceFile (name : OsText) : Bool := name.text?.any isSource

mutual

/-- The sources at an entry of a directory, given its path and name. -/
def Entry.sources (path name : OsText) : Entry → Except WalkError (List OsText)
  | .file _ => .ok (if isSourceFile name then [path] else [])
  | .directory entries => if isSkippedDirectory name then .ok [] else sourcesAmong path entries
  | .link _ | .special _ => .ok []
  | .closed => if isSkippedDirectory name then .ok [] else .error (.directory path)
  | .broken entries =>
    if isSkippedDirectory name then .ok [] else sourcesAmong path entries >>= fun _ => .error .entry
  | .unknown => .error (.metadata path)

/-- The sources among the entries of the directory at a path. -/
def sourcesAmong (path : OsText) : List (OsText × Entry) → Except WalkError (List OsText)
  | [] => .ok []
  | (name,entry) :: rest => do
    let here ← entry.sources (Path.join path name) name
    return here ++ (← sourcesAmong path rest)

end

namespace World

/-- The sources at a path, sorted: the file itself, or those below the directory. -/
def sources (w : World) (path : OsText) : Except WalkError (List OsText) :=
  match w.entry? path with
  | some (.file _) => .ok (if (Path.fileName? path).any isSourceFile then [path] else [])
  | some (.directory entries) => (sourcesAmong path entries).map (·.mergeSort Path.le)
  | some .closed => .error (.directory path)
  | some (.broken entries) => sourcesAmong path entries >>= fun _ => .error .entry
  | _ => .error (.missing path)

end World
end CoverageCounters

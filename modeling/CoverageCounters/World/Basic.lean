import CoverageCounters.Git
import CoverageCounters.Path.Basic
import CoverageCounters.World.Entry

/-!
The world a command runs in: the file tree from its top, the working directory, and what the
repository program answers. Paths are followed name by name; links are followed too, a bounded
number of times.
-/

namespace CoverageCounters

structure World where
  top : Entry
  /-- The names that lead from the top to the working directory. -/
  workingDirectory : List OsText
  /-- What the repository program prints on some arguments; absent if it fails. -/
  git : List String → Option String

namespace Entry

/-- Where segments lead from a place, given and answered as the names to it, nearest first. Every
segment is looked up in a directory, an idle one too. -/
def follow (top : Entry) (links : Nat) (place : List OsText) :
    List (List UInt8) → Option (List OsText)
  | [] => some place
  | segment :: rest =>
    match (top.at? place.reverse).bind listed? with
    | some entries =>
      if Path.isIdle segment then follow top links place rest
      else if segment = [Path.dot,Path.dot] then follow top links place.tail rest
      else match named? ⟨segment⟩ entries with
        | none => none
        | some (.link target) =>
          match links with
          | 0 => none
          | links + 1 =>
            follow top links (if Path.isAbsolute target then [] else place)
              (Path.segments target ++ rest)
        | some _ => follow top links (⟨segment⟩ :: place) rest
    | none => none
termination_by segments => (links,segments.length)

/-- The place where writing to segments puts a file. Its directory must be there, and what is there
already must be a file; a link is followed. -/
def destination? (top : Entry) (links : Nat) (place : List OsText) (segments : List (List UInt8)) :
    Option (List OsText) := do
  let last ← segments.getLast?
  if Path.isIdle last || last = [Path.dot,Path.dot] then none
  else
    let directory ← top.follow links place segments.dropLast
    match named? ⟨last⟩ (← (top.at? directory.reverse).bind listed?) with
    | none | some (.file _) => some (⟨last⟩ :: directory)
    | some (.link target) =>
      match links with
      | 0 => none
      | links + 1 =>
        destination? top links (if Path.isAbsolute target then [] else directory)
          (Path.segments target)
    | some _ => none
termination_by links

end Entry

namespace World

/-- How many links are followed on the way to one place. -/
def maxLinks : Nat := 40

def start (w : World) (path : OsText) : List OsText :=
  if Path.isAbsolute path then [] else w.workingDirectory.reverse

def entry? (w : World) (path : OsText) : Option Entry :=
  if path.isEmpty then none
  else (w.top.follow maxLinks (w.start path) (Path.segments path)).bind fun place =>
    w.top.at? place.reverse

def has (w : World) (path : OsText) : Bool :=
  match w.entry? path with
  | none | some .unknown => false
  | some _ => true

def isFile (w : World) (path : OsText) : Bool := (w.entry? path).any Entry.isFile

def read? (w : World) (path : OsText) : Option String :=
  match w.entry? path with
  | some (.file text) | some (.special text) => text
  | _ => none

def write? (w : World) (path : OsText) (text : String) : Option World :=
  (w.top.destination? maxLinks (w.start path) (Path.segments path)).map fun place =>
    { w with top := w.top.put (.file (some text)) place.reverse }

def directory (w : World) : OsText :=
  ⟨Path.slash :: Path.joinSlash (w.workingDirectory.map OsText.bytes)⟩

/-- What the repository program answers, without blanks around it; empty if it fails. -/
def gitAnswer (w : World) (arguments : List String) : String :=
  ((w.git arguments).map trimText).getD ""

def gitInfo (w : World) : GitInfo :=
  if (w.git ["rev-parse","--git-dir"]).isNone then {}
  else
    let remote := String.ofList
      (dropTail (· = '/') (w.gitAnswer ["config","--get","remote.origin.url"]).toList)
    { commitHash := w.gitAnswer ["rev-parse","HEAD"]
      version := w.gitAnswer ["describe","--always"]
      branch := w.gitAnswer ["rev-parse","--abbrev-ref","HEAD"]
      lastCommitDatetime := w.gitAnswer ["log","-1","--format=%cI"]
      remote
      projectName := projectName remote }

end World
end CoverageCounters

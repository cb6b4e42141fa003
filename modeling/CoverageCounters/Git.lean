import CoverageCounters.Json.Basic
import CoverageCounters.Text.Blank

/-!
Repository metadata: six texts, each empty when unknown.
-/

namespace CoverageCounters

structure GitInfo where
  commitHash : String := ""
  version : String := ""
  branch : String := ""
  lastCommitDatetime : String := ""
  remote : String := ""
  projectName : String := ""
  deriving DecidableEq, Repr

namespace GitInfo

/-- The fields by name, in the order in which they are written. -/
def fields (g : GitInfo) : List (String × String) :=
  [("commit_hash",g.commitHash),("version",g.version),("branch",g.branch),
   ("last_commit_datetime",g.lastCommitDatetime),("remote",g.remote),
   ("project_name",g.projectName)]

def entries (g : GitInfo) : List (String × Json) := g.fields.map fun (k,v) => (k,.string v)

def toJson (g : GitInfo) : Json := .object g.entries

/-- Whether neither a commit nor a remote is known. -/
def isEmpty (g : GitInfo) : Bool := g.commitHash.isEmpty && g.remote.isEmpty

end GitInfo

/-- What follows the last slash or colon of a text. -/
def lastSegment (text : List Char) : List Char :=
  (text.reverse.takeWhile fun c => c ≠ '/' && c ≠ ':').reverse

/-- A text without the given ending, if it has it. -/
def withoutEnding (ending text : List Char) : List Char :=
  if ending.isSuffixOf text then text.take (text.length - ending.length) else text

/-- The name of a project: the last segment of its remote, without `.git`. -/
def projectName (remote : String) : String :=
  let trimmed := dropTail (· = '/') (trimBlank remote.toList)
  String.ofList (withoutEnding ".git".toList (lastSegment trimmed))

end CoverageCounters

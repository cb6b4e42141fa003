import CoverageCounters.Git

/-!
Path prefixes with placeholders `${name}`, whose name runs to the first closing brace; a placeholder
that is never closed is literal. A template is gone over from left to right for each thing that is
asked of it: whether it has a placeholder, which name is not known, and what it is filled to.
-/

namespace CoverageCounters

namespace Template

def knownNames : List String :=
  ["commit_hash","version","branch","last_commit_datetime","remote","project_name"]

/-- What a name is filled with. A name that is not known is filled with nothing. -/
def valueOf (git : GitInfo) : String → String
  | "commit_hash" => git.commitHash
  | "version" => git.version
  | "branch" => git.branch
  | "last_commit_datetime" => git.lastCommitDatetime
  | "remote" => git.remote
  | "project_name" => git.projectName
  | _ => ""

/-- The name of the placeholder that a text starts with. -/
def nameAt? : List Char → Option (List Char)
  | '$' :: '\x7b' :: rest =>
    if '\x7d' ∈ rest then some (rest.takeWhile (· ≠ '\x7d')) else none
  | _ => none

/-- Whether a placeholder starts anywhere in a text. -/
def isFound : List Char → Bool
  | [] => false
  | c :: rest => (nameAt? (c :: rest)).isSome || isFound rest

/-- The names of the placeholders in a text, in order. The first `skip` characters belong to a
placeholder that has been read. -/
def namesFrom : Nat → List Char → List (List Char)
  | _, [] => []
  | skip + 1, _ :: rest => namesFrom skip rest
  | 0, c :: rest =>
    match nameAt? (c :: rest) with
    | some name => name :: namesFrom (name.length + 2) rest
    | none => namesFrom 0 rest

/-- A text with its placeholders filled. The first `skip` characters belong to a placeholder that has
been filled. -/
def fillFrom (git : GitInfo) : Nat → List Char → List Char
  | _, [] => []
  | skip + 1, _ :: rest => fillFrom git skip rest
  | 0, c :: rest =>
    match nameAt? (c :: rest) with
    | some name =>
      (valueOf git (String.ofList name)).toList ++ fillFrom git (name.length + 2) rest
    | none => c :: fillFrom git 0 rest

/-- Whether repository metadata is needed to expand a template. -/
def hasPlaceholders (template : String) : Bool := isFound template.toList

/-- The first placeholder that names no field. -/
def unknown? (template : String) : Option String :=
  ((namesFrom 0 template.toList).map String.ofList).find? (!knownNames.contains ·)

def expand (template : String) (git : GitInfo) : String :=
  String.ofList (fillFrom git 0 template.toList)

def unknownMessage (name : String) : String :=
  "unknown placeholder $\x7b" ++ name ++ "\x7d in path prefix (expected one of: "
    ++ ", ".intercalate knownNames ++ ")"

end Template
end CoverageCounters

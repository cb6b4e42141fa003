import CoverageCounters.Source.Parsed
import CoverageCounters.Tree.Wire
import CoverageCounters.World.Basic

/-!
Worlds described in JSON: the files below the working directory, what a parser made of their texts,
and what the repository program answers.
-/

namespace CoverageCounters

namespace Comment

/-- A comment from its kind, text and bounds. -/
def ofJson? : Json → Option Comment
  | .array [_,.string text,lo,hi] => do
    return ⟨text,.ofBounds (← lo.asNat? 64) (← hi.asNat? 64)⟩
  | _ => none

end Comment

namespace CommentTable

def entryOfJson? : Json → Option (Nat × List Comment)
  | .array [position,.array comments] => do
    return (← position.asNat? 64,← comments.mapM Comment.ofJson?)
  | _ => none

/-- A table from its entries; an absent one is empty. -/
def ofJson? : Option Json → Option CommentTable
  | none => some .empty
  | some j => do return ⟨← (← j.asArray?).mapM entryOfJson?⟩

end CommentTable

namespace Comments

/-- Comments from their two tables; absent, there are none. -/
def ofJson? : Option Json → Option Comments
  | none => some .empty
  | some j => do
    return ⟨← CommentTable.ofJson? (j.present? "leading"),
      ← CommentTable.ofJson? (j.present? "trailing")⟩

end Comments

namespace Snapshot

/-- What a parser made of a text in some flavors. -/
structure Reading where
  text : String
  flavors : List String
  value : Json

def readingsOf (text : String) (described : Json) : List Reading :=
  (((described.present? "parse").bind Json.asArray?).getD []).map fun value =>
    let flavors := ((value.present? "flavors").bind Json.asArray?).getD []
    ⟨text,flavors.filterMap Json.asString?,value⟩

/-- The program and comments of a reading, or the parser's message. -/
def Reading.result (r : Reading) : Except String ParsedSource :=
  match (r.value.present? "error").bind Json.asString? with
  | some message => .error message
  | none =>
    match (r.value.present? "ast").bind Program.ofJson?,
        Comments.ofJson? (r.value.present? "comments") with
    | some program, some comments => .ok ⟨program,comments⟩
    | _, _ => .error "unreadable tree"

/-- The parser that answers with given readings. -/
def parser (readings : List Reading) : SourceParser := fun flavor text =>
  match readings.find? fun r => r.text = text && r.flavors.contains flavor.name with
  | some r => r.result
  | none => .error "no reading"

def byte? (j : Json) : Option UInt8 := (j.asNat? 8).map Nat.toUInt8

def textOfBytes? (bytes : List UInt8) : Option String := String.fromUTF8? ⟨bytes.toArray⟩

def entryOf (described : Json) : Entry :=
  match (described.present? "text").bind Json.asString? with
  | some text => .file (some text)
  | none =>
    match (described.present? "symlink").bind Json.asString? with
    | some target => .link (.ofString target)
    | none =>
      match (described.present? "bytes").bind Json.asArray? with
      | some items => .file ((items.mapM byte?).bind textOfBytes?)
      | none => .directory []

/-- Make the directories that segments lead through; the answer is the tree and the place reached.
-/
def makeDirectories (top : Entry) (place : List OsText) :
    List (List UInt8) → Entry × List OsText
  | [] => (top,place)
  | segment :: rest =>
    match top.follow World.maxLinks place [segment] with
    | some next => makeDirectories top next rest
    | none =>
      let next := ⟨segment⟩ :: place
      makeDirectories (top.put (.directory []) next.reverse) next rest

/-- Lay out one entry, seen from a place. A directory that is there already stays. -/
def layOut (place : List OsText) (top : Entry) (described : Json) : Entry :=
  let segments := Path.segments (((described.present? "path").bind Json.asString?).getD "")
  match entryOf described with
  | .directory _ => (makeDirectories top place segments).1
  | entry =>
    let (top,directory) := makeDirectories top place segments.dropLast
    top.put entry (⟨segments.getLast?.getD []⟩ :: directory).reverse

/-- The answers of the repository program: what it prints, by its arguments, where it succeeds. -/
def gitAnswers (commands : Option Json) (arguments : List String) : Option String := do
  let answer ← (← commands).present? (" ".intercalate arguments)
  if ((answer.present? "code").bind (Json.asNat? 64)).getD 0 = 0 then
    (answer.present? "stdout").bind Json.asString?
  else none

/-- The world that is described, its files laid out in the directory the given names lead to, and
run from a directory below that one. -/
def world (names : List OsText) (described : Json) (directory : OsText) : World :=
  let files := ((described.present? "files").bind Json.asArray?).getD []
  let top := (Entry.directory []).put (.directory []) names
  let top := files.foldl (layOut names.reverse) top
  let below := (Path.segments directory).filter (!Path.isIdle ·)
  { top, workingDirectory := names ++ below.map .mk
    git := gitAnswers (described.present? "git_commands") }

def fileReadings (described : Json) : List Reading :=
  match entryOf described with
  | .file (some text) => readingsOf text described
  | _ => []

/-- The parser that answers with the readings of all files described. -/
def fileParser (described : Json) : SourceParser :=
  parser ((((described.present? "files").bind Json.asArray?).getD []).flatMap fileReadings)

end Snapshot
end CoverageCounters

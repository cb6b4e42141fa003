import CoverageCounters.Text.Blank
import CoverageCounters.Text.Word

/-!
What a comment can say: an ignore hint, the hint that leaves out the whole file, or a reference to a
source map.
-/

namespace CoverageCounters

/-- How far an ignore hint reaches: the next construct, or one side of an `if`. -/
inductive Hint where
  | next
  | consequent
  | alternate
  deriving DecidableEq, Repr

namespace Hint

def keyword : Hint → String
  | next => "next"
  | consequent => "if"
  | alternate => "else"

def all : List Hint := [consequent,alternate,next]

/-- What follows the words `istanbul ignore` and the blanks after them at the start of a text. -/
def afterIgnore? (text : List Char) : Option (List Char) := do
  let afterTool ← afterWord? "istanbul".toList text
  let verb ← afterBlanks? afterTool
  let afterVerb ← afterWord? "ignore".toList verb
  afterBlanks? afterVerb

/-- Whether a text is an ignore hint with the given keyword, as a word of its own. -/
def hasKeyword (keyword : String) (text : List Char) : Bool :=
  match afterIgnore? text with
  | none => false
  | some rest =>
    match afterWord? keyword.toList rest with
    | none => false
    | some tail => endsWord tail

def ofText? (text : String) : Option Hint :=
  all.find? fun hint => hasKeyword hint.keyword (trimBlank text.toList)

end Hint

/-- Whether a comment leaves out the whole file. -/
def isFileHint (text : String) : Bool := Hint.hasKeyword "file" (trimBlank text.toList)

namespace SourceMapReference

/-- What follows a mark, blanks and the name of the reference at the start of a text. -/
def afterMark? : List Char → Option (List Char)
  | [] => none
  | c :: rest =>
    if c = '#' ∨ c = '@' then
      afterWord? "sourceMappingURL=".toList (rest.dropWhile isBlank)
    else none

/-- What follows the first reference in a text. -/
def find? : List Char → Option (List Char)
  | [] => none
  | c :: rest => (afterMark? (c :: rest)).or (find? rest)

/-- The source map a comment refers to: the rest of the line of its first reference, trimmed. An
empty reference is none. -/
def ofText? (text : String) : Option String :=
  match find? (trimBlank text.toList) with
  | none => none
  | some rest =>
    match trimBlank (rest.takeWhile (· ≠ '\n')) with
    | [] => none
    | url => some (String.ofList url)

end SourceMapReference
end CoverageCounters

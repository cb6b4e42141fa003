import CoverageCounters.Json.Basic
import CoverageCounters.Number.Shortest

/-!
JSON text, compact and indented. The printers write in front of a given rest, so that what follows a
value can be quantified over.
-/

namespace CoverageCounters

namespace Number

def text : Number → List Char
  | integer n => if n < 0 then '-' :: decimalDigits n.natAbs else decimalDigits n.natAbs
  | binary x => x.jsonText

end Number

namespace Json

def hexDigit (n : Nat) : Char := (Nat.toDigits 16 n).headD '0'

/-- The two short escapes, the five control letters, and a code for the other control characters. -/
def escape (c : Char) : List Char :=
  if c = '"' then ['\\','"']
  else if c = '\\' then ['\\','\\']
  else if c.val = 8 then ['\\','b']
  else if c.val = 9 then ['\\','t']
  else if c.val = 10 then ['\\','n']
  else if c.val = 12 then ['\\','f']
  else if c.val = 13 then ['\\','r']
  else if c.toNat < 32 then
    ['\\','u','0','0',hexDigit (c.toNat / 16),hexDigit (c.toNat % 16)]
  else [c]

def quote (s : String) (rest : List Char) : List Char :=
  '"' :: s.toList.foldr (fun c text => escape c ++ text) ('"' :: rest)

/-- A comma in front of every element but the first. -/
def separated (first : Bool) (text : List Char) : List Char :=
  if first then text else ',' :: text

mutual

/-- Compact text of a value in front of `rest`. -/
def render : Json → List Char → List Char
  | .null, rest => "null".toList ++ rest
  | .bool true, rest => "true".toList ++ rest
  | .bool false, rest => "false".toList ++ rest
  | .number n, rest => n.text ++ rest
  | .string s, rest => quote s rest
  | .array items, rest => '[' :: renderItems true items (']' :: rest)
  | .object entries, rest => '\x7b' :: renderEntries true entries ('\x7d' :: rest)

def renderItems (first : Bool) : List Json → List Char → List Char
  | [], rest => rest
  | j :: items, rest => separated first (render j (renderItems false items rest))

def renderEntries (first : Bool) : List (String × Json) → List Char → List Char
  | [], rest => rest
  | (k,j) :: entries, rest =>
    separated first (quote k (':' :: render j (renderEntries false entries rest)))

end

def compact (j : Json) : String := String.ofList (render j [])

def indent (depth : Nat) : List Char := List.replicate (2 * depth) ' '

/-- A new line at the given depth, with a comma in front of every element but the first. -/
def broken (first : Bool) (depth : Nat) (text : List Char) : List Char :=
  separated first ('\n' :: (indent depth ++ text))

mutual

/-- Indented text, two blanks a level; an empty array or object stays on its line. -/
def renderPretty (depth : Nat) : Json → List Char → List Char
  | .null, rest => "null".toList ++ rest
  | .bool true, rest => "true".toList ++ rest
  | .bool false, rest => "false".toList ++ rest
  | .number n, rest => n.text ++ rest
  | .string s, rest => quote s rest
  | .array [], rest => '[' :: ']' :: rest
  | .array items, rest =>
    '[' :: prettyItems true (depth + 1) items (broken true depth (']' :: rest))
  | .object [], rest => '\x7b' :: '\x7d' :: rest
  | .object entries, rest =>
    '\x7b' :: prettyEntries true (depth + 1) entries (broken true depth ('\x7d' :: rest))

def prettyItems (first : Bool) (depth : Nat) : List Json → List Char → List Char
  | [], rest => rest
  | j :: items, rest =>
    broken first depth (renderPretty depth j (prettyItems false depth items rest))

def prettyEntries (first : Bool) (depth : Nat) : List (String × Json) → List Char → List Char
  | [], rest => rest
  | (k,j) :: entries, rest =>
    broken first depth
      (quote k (':' :: ' ' :: renderPretty depth j (prettyEntries false depth entries rest)))

end

def pretty (j : Json) : String := String.ofList (renderPretty 0 j [])

end Json
end CoverageCounters

/-!
String literals of a program may hold a lone surrogate, which no text here can. Inside a literal it
is spelled as a backslash, `u` and four hexadecimal digits, and a backslash that would start such a
spelling is written twice.
-/

namespace CoverageCounters

def isHexDigit (c : Char) : Bool :=
  c.isDigit || ('a' ≤ c && c ≤ 'f') || ('A' ≤ c && c ≤ 'F')

/-- Whether a text starts with `u` and four hexadecimal digits. -/
def startsUnit : List Char → Bool
  | 'u' :: a :: b :: c :: d :: _ => isHexDigit a && isHexDigit b && isHexDigit c && isHexDigit d
  | _ => false

/-- Spell an ordinary text inside a literal. -/
def spellLiteral : List Char → List Char
  | [] => []
  | c :: rest =>
    if c = '\\' ∧ startsUnit rest then '\\' :: '\\' :: spellLiteral rest else c :: spellLiteral rest

/-- The ordinary text of a literal, with the replacement character for each lone surrogate. The
first `skip` characters belong to a spelling that has been read already. -/
def readLiteral (skip : Nat) : List Char → List Char
  | [] => []
  | c :: rest =>
    if 0 < skip then readLiteral (skip - 1) rest
    else if c = '\\' then
      if startsUnit rest then Char.ofNat 0xFFFD :: readLiteral 5 rest
      else if rest.head? = some '\\' ∧ startsUnit rest.tail then '\\' :: readLiteral 1 rest
      else '\\' :: readLiteral 0 rest
    else c :: readLiteral 0 rest

def literalText (text : String) : String := String.ofList (spellLiteral text.toList)

def textOfLiteral (text : String) : String := String.ofList (readLiteral 0 text.toList)

end CoverageCounters

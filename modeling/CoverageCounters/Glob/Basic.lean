/-!
Patterns over paths, and what they match. A path is matched as its UTF-8 bytes: `?` stands for one
byte, also one of a longer character, and no token but the recursive ones treats a slash apart.
-/

namespace CoverageCounters

namespace Glob

/-- A class of bytes, given by ranges of characters. -/
structure ByteClass where
  negated : Bool
  ranges : List (Char × Char)
  deriving DecidableEq, Repr

inductive Token where
  | literal (c : Char)
  | any
  | zeroOrMore
  /-- The directories before a path's end, or none. -/
  | recursiveFront
  /-- A slash and everything after it. -/
  | recursiveEnd
  /-- One slash, or two with anything between them. -/
  | recursiveMiddle
  | oneOf (cls : ByteClass)
  /-- One of several patterns. Without any it matches the empty text. -/
  | alternates (branches : List (List Token))
  deriving Repr

def Token.char? : Token → Option Char
  | literal c => some c
  | _ => none

def charBytes (c : Char) : List UInt8 := String.utf8EncodeChar c

def textBytes (s : String) : List UInt8 := s.toList.flatMap charBytes

namespace ByteClass

/-- The byte ranges of a range of characters. The bytes stand side by side, so only the last byte of
the lower end and the first byte of the upper end bound a range. -/
def byteRanges (range : Char × Char) : List (UInt8 × UInt8) :=
  let low := charBytes range.1
  let high := charBytes range.2
  if range.1 = range.2 then low.map fun b => (b,b)
  else
    low.dropLast.map (fun b => (b,b)) ++ (low.getLast?.toList.zip high.head?.toList)
      ++ high.tail.map fun b => (b,b)

def contains (cls : ByteClass) (b : UInt8) : Bool :=
  (cls.ranges.flatMap byteRanges).any (fun r => r.1 ≤ b && b ≤ r.2) != cls.negated

end ByteClass

/-- The ends of one text, longest first and each once. -/
abbrev Ends := List (List UInt8)

namespace Ends

/-- The ends that follow the given bytes. -/
def after (bytes : List UInt8) (ends : Ends) : Ends :=
  ends.filterMap fun e => if bytes.isPrefixOf e then some (e.drop bytes.length) else none

def afterByte (p : UInt8 → Bool) (ends : Ends) : Ends :=
  ends.filterMap fun
    | [] => none
    | b :: e => if p b then some e else none

def afterSlash (ends : Ends) : Ends := ends.afterByte (· = '/'.toNat.toUInt8)

def tails : List UInt8 → Ends
  | [] => [[]]
  | b :: e => (b :: e) :: tails e

/-- The ends that follow anything: those of the longest. -/
def afterAnything : Ends → Ends
  | [] => []
  | longest :: _ => tails longest

def union (a b : Ends) : Ends := (a.merge b fun x y => x.length ≥ y.length).eraseReps

end Ends

mutual

/-- What is left when a token has matched the front of one of the ends. -/
def Token.rests (ends : Ends) : Token → Ends
  | .literal c => ends.after (charBytes c)
  | .any => ends.afterByte fun _ => true
  | .zeroOrMore => ends.afterAnything
  | .recursiveFront => ends.union ends.afterAnything.afterSlash
  | .recursiveEnd => ends.afterSlash.afterAnything
  | .recursiveMiddle => ends.afterSlash.union ends.afterSlash.afterAnything.afterSlash
  | .oneOf cls => ends.afterByte cls.contains
  | .alternates branches => if branches.isEmpty then ends else branchRests ends branches

/-- What is left when tokens have matched one after the other. -/
def restsOf (ends : Ends) : List Token → Ends
  | [] => ends
  | token :: tokens => restsOf (token.rests ends) tokens

/-- What is left when one of several branches has matched. -/
def branchRests (ends : Ends) : List (List Token) → Ends
  | [] => []
  | branch :: branches => (restsOf ends branch).union (branchRests ends branches)

end

end Glob

structure Glob where
  tokens : List Glob.Token

namespace Glob

/-- What follows the last slash of a path, or all of it. -/
def afterLastSlash (path : String) : List Char :=
  (path.toList.reverse.takeWhile (· ≠ '/')).reverse

/-- Whether a path ends in the name of a file. The segment for the parent directory is no name. -/
def namesFile (path : String) : Bool := afterLastSlash path ≠ ['.','.']

/-- A dot and what follows the last dot of a file's name. -/
def isExtension : List Char → Bool
  | '.' :: cs => cs.all fun c => c ≠ '.' && c ≠ '/'
  | _ => false

/-- Whether tokens end in a literal dot and literals that are neither dots nor slashes. -/
def endsInExtension (tokens : List Token) : Bool :=
  let fromDot := tokens.reverse.dropWhile fun t => t.char?.any fun c => c ≠ '.' && c ≠ '/'
  fromDot.head?.bind Token.char? = some '.'

/-- Whether a pattern asks for a file's name. `**/name` and `*.ext` do, and so does a pattern that
ends in an extension unless all that stands before it is a text, or a star and a text: those are
compared with the path's end as it is. -/
def asksForName (tokens : List Token) : Bool :=
  let (inside,tokens) := match tokens with
    | .recursiveFront :: rest => (true,rest)
    | _ => (false,tokens)
  let (starred,tokens) := match tokens with
    | .zeroOrMore :: rest => (true,rest)
    | _ => (false,tokens)
  match tokens.mapM Token.char? with
  | some cs => if starred then isExtension cs else inside && cs ≠ [] && !cs.contains '/'
  | none => endsInExtension tokens

/-- Whether a pattern matches a whole path. The pattern `**` matches every path, and one that asks
for a file's name only those that end in a name. -/
def isMatch (glob : Glob) (path : String) : Bool :=
  match glob.tokens with
  | [.recursiveFront] => true
  | tokens =>
    (namesFile path || !asksForName tokens) && (restsOf [textBytes path] tokens).contains []

end Glob
end CoverageCounters

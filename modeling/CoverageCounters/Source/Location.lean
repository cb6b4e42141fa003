import CoverageCounters.Source.Span

/-!
Source texts and locations. Lines are counted from 1 and columns from 0, in UTF-16 units. A line
ends at a line feed, a carriage return, or the two together.
-/

namespace CoverageCounters

structure Position where
  line : Nat
  column : Nat
  deriving DecidableEq, Repr

structure Location where
  start : Position
  stop : Position
  deriving DecidableEq, Repr

namespace Location

/-- The one-column location at the start of a location. -/
def firstColumn (l : Location) : Location :=
  ⟨l.start,⟨l.start.line,l.start.column + 1⟩⟩

/-- Line and column of the start. -/
def text (l : Location) : String := s!"{l.start.line}:{l.start.column}"

end Location

/-- A source text without the byte order mark at its start. -/
structure SourceText where
  chars : List Char

namespace SourceText

def ofString (s : String) : SourceText :=
  match s.toList with
  | c :: rest => if c.val = 0xFEFF then ⟨rest⟩ else ⟨c :: rest⟩
  | [] => ⟨[]⟩

def endPosition (t : SourceText) : Nat := t.chars.foldl (fun pos c => pos + c.utf8Size) 1

/-- Positions that follow a line end, for a text that starts at `pos`. -/
def lineEndsFrom (pos : Nat) : List Char → List Nat
  | [] => []
  | '\r' :: '\n' :: rest => (pos + 2) :: lineEndsFrom (pos + 2) rest
  | c :: rest =>
    if c = '\n' ∨ c = '\r' then (pos + 1) :: lineEndsFrom (pos + 1) rest
    else lineEndsFrom (pos + c.utf8Size) rest

/-- Positions where a line starts. A line without any character at the end of the text is none. -/
def lineStarts (t : SourceText) : List Nat :=
  let starts := 1 :: lineEndsFrom 1 t.chars
  if starts.getLast? = some t.endPosition then starts.dropLast else starts

/-- UTF-16 units of a character. -/
def units (c : Char) : Nat := if c.toNat < 0x10000 then 1 else 2

/-- Units of the characters that start at `start` or later and before `stop`, for a text at `pos`.
-/
def unitsBetween (start stop pos : Nat) : List Char → Nat
  | [] => 0
  | c :: rest =>
    if stop ≤ pos then 0
    else (if start ≤ pos then units c else 0) + unitsBetween start stop (pos + c.utf8Size) rest

/-- Line and column of a byte position. Past the end of the text every byte counts one column. -/
def position (t : SourceText) (pos : Nat) : Position :=
  let starts := t.lineStarts.filter (· ≤ pos)
  match starts.getLast? with
  | none => ⟨0,0⟩
  | some start => ⟨starts.length,unitsBetween start pos 1 t.chars + (pos - t.endPosition)⟩

/-- The location of a span; a dummy span has none. -/
def location? (t : SourceText) (s : Span) : Option Location :=
  if s.isDummy then none else some ⟨t.position s.lo,t.position s.hi⟩

@[simp] theorem location?_dummy (t : SourceText) : t.location? .dummy = none := rfl

theorem location?_eq_none_iff (t : SourceText) (s : Span) :
    t.location? s = none ↔ s.isDummy = true := by
  unfold location?
  split <;> simp_all

/-- What follows position `target` in a text at `pos`, if a character starts or the text ends
there. -/
def dropTo (target pos : Nat) : List Char → Option (List Char)
  | [] => if pos = target then some [] else none
  | c :: rest => if pos = target then some (c :: rest) else dropTo target (pos + c.utf8Size) rest

/-- What precedes position `target` in a text at `pos`, if a character starts or the text ends
there. -/
def takeTo (target pos : Nat) : List Char → Option (List Char)
  | [] => if pos = target then some [] else none
  | c :: rest =>
    if pos = target then some []
    else (takeTo target (pos + c.utf8Size) rest).map (c :: ·)

/-- The characters between two positions, if both are boundaries of characters. -/
def slice? (t : SourceText) (lo hi : Nat) : Option (List Char) :=
  (dropTo lo 1 t.chars).bind (takeTo hi lo)

end SourceText
end CoverageCounters

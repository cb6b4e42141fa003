/-!
Names and paths as a system has them: bytes, which need not be the encoding of a text. Read as a text
they are either refused, or a mark stands for whatever is no character.
-/

namespace CoverageCounters

namespace Utf8

/-- A character that has been read in part: its value so far, how many bytes are to come behind the
next one, and the bounds of the next one. -/
structure Pending where
  value : Nat
  behind : Nat
  low : Nat
  high : Nat
  deriving DecidableEq, Repr

/-- What is to come behind the first byte of a character that has several. The bounds leave out long
forms, surrogates, and what lies beyond the last character. -/
def lead? (b : Nat) : Option Pending :=
  if 0xC2 ≤ b ∧ b ≤ 0xDF then some ⟨b - 0xC0,0,0x80,0xBF⟩
  else if 0xE0 ≤ b ∧ b ≤ 0xEF then
    some ⟨b - 0xE0,1,if b = 0xE0 then 0xA0 else 0x80,if b = 0xED then 0x9F else 0xBF⟩
  else if 0xF0 ≤ b ∧ b ≤ 0xF4 then
    some ⟨b - 0xF0,2,if b = 0xF0 then 0x90 else 0x80,if b = 0xF4 then 0x8F else 0xBF⟩
  else none

/-- A byte where a character starts: what has been read by then, and what is pending. -/
def start (b : Nat) : List (Option Char) × Option Pending :=
  if b < 0x80 then ([some (.ofNat b)],none)
  else match lead? b with
    | some p => ([],some p)
    | none => ([none],none)

/-- The byte behind a part of a character. One that does not go on with it starts anew, and the part
is no character. -/
def Pending.step (p : Pending) (b : Nat) : List (Option Char) × Option Pending :=
  if p.low ≤ b ∧ b ≤ p.high then
    let value := p.value * 64 + (b - 0x80)
    match p.behind with
    | 0 => ([some (.ofNat value)],none)
    | behind + 1 => ([],some ⟨value,behind,0x80,0xBF⟩)
  else (none :: (start b).1,(start b).2)

/-- Read bytes. Each run of bytes that could have gone on to a character, and does not, is one gap. -/
def decode : Option Pending → List UInt8 → List (Option Char)
  | none, [] => []
  | some _, [] => [none]
  | none, b :: rest => (start b.toNat).1 ++ decode (start b.toNat).2 rest
  | some p, b :: rest => (p.step b.toNat).1 ++ decode (p.step b.toNat).2 rest

end Utf8

@[ext]
structure OsText where
  bytes : List UInt8
  deriving DecidableEq, Repr, Inhabited

namespace OsText

def ofString (s : String) : OsText := ⟨s.toList.flatMap String.utf8EncodeChar⟩

instance : Coe String OsText := ⟨ofString⟩

def empty : OsText := ⟨[]⟩

def isEmpty (t : OsText) : Bool := t.bytes.isEmpty

theorem isEmpty_eq_false_iff {t : OsText} : t.isEmpty = false ↔ t ≠ .empty := by
  rw [isEmpty,List.isEmpty_eq_false_iff,Ne,Ne,OsText.ext_iff]
  rfl

/-- The text that is encoded, if one is. -/
def text? (t : OsText) : Option String := ((Utf8.decode none t.bytes).mapM id).map String.ofList

/-- A text with a mark for every gap. -/
def lossy (t : OsText) : String :=
  String.ofList ((Utf8.decode none t.bytes).map (·.getD '\uFFFD'))

end OsText
end CoverageCounters

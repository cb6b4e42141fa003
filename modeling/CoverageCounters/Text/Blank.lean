/-!
White space: the characters with the property White_Space, and the trimming of texts.
-/

namespace CoverageCounters

/-- The code points with the property White_Space. -/
def blankRanges : List (Nat × Nat) :=
  [(0x9,0xD),(0x20,0x20),(0x85,0x85),(0xA0,0xA0),(0x1680,0x1680),(0x2000,0x200A),
   (0x2028,0x2029),(0x202F,0x202F),(0x205F,0x205F),(0x3000,0x3000)]

def isBlank (c : Char) : Bool :=
  blankRanges.any fun range => range.1 ≤ c.toNat && c.toNat ≤ range.2

/-- A list without the elements at its end that satisfy `p`. -/
def dropTail {α : Type} (p : α → Bool) (xs : List α) : List α :=
  (xs.reverse.dropWhile p).reverse

@[simp] theorem dropTail_nil {α : Type} (p : α → Bool) : dropTail p [] = [] := rfl

/-- A text without the blanks at both ends. -/
def trimBlank (cs : List Char) : List Char := dropTail isBlank (cs.dropWhile isBlank)

@[simp] theorem trimBlank_nil : trimBlank [] = [] := rfl

def trimText (s : String) : String := String.ofList (trimBlank s.toList)

def isBlankText (s : String) : Bool := s.toList.all isBlank

/-- What follows a word at the start of a text. -/
def afterWord? : List Char → List Char → Option (List Char)
  | [], text => some text
  | _ :: _, [] => none
  | w :: word, c :: text => if w = c then afterWord? word text else none

/-- What follows one or more blanks at the start of a text, all of them taken. -/
def afterBlanks? (text : List Char) : Option (List Char) :=
  match text with
  | [] => none
  | c :: rest => if isBlank c then some (rest.dropWhile isBlank) else none

theorem afterWord?_eq_some_iff (word text rest : List Char) :
    afterWord? word text = some rest ↔ text = word ++ rest := by
  induction word generalizing text with
  | nil => simp [afterWord?,eq_comm]
  | cons w word ih =>
    cases text with
    | nil => simp [afterWord?]
    | cons c text =>
      by_cases h : w = c
      · simp [afterWord?,h,ih]
      · simp [afterWord?,h,Ne.symm h]

end CoverageCounters

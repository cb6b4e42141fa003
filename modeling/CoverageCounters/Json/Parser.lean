import CoverageCounters.Json.Basic

/-!
Reading JSON text. Characters are folded into tokens and tokens into a value, with the open arrays
and objects on an explicit stack, so both steps recurse on their input alone. Nesting is limited,
and a decimal is read as a significand of 64 bits scaled by a power of ten.
-/

namespace CoverageCounters

namespace Number

/-- The largest significand kept; digits beyond it only scale the number. -/
def maxSignificand : Nat := Nat.pow 2 64 - 1

def digitValue (c : Char) : Nat := c.toNat - '0'.toNat

/-- Append decimal digits to a significand as long as it fits, and count those that did. -/
def absorb (significand : Nat) : List Char → Nat × Nat
  | [] => (significand,0)
  | c :: rest =>
    let next := significand * 10 + digitValue c
    if maxSignificand < next then (significand,0)
    else
      let (all,used) := absorb next rest
      (all,used + 1)

/-- A power of ten, at most `10 ^ 308`. -/
def powerOfTen (e : Nat) : Binary64 := Binary64.ofInt (Nat.pow 10 e)

/-- Scale by a power of ten, rounding at each step. Powers beyond the range are taken in steps of
`10 ^ 308`, until nothing is left. -/
def scale : Nat → Binary64 → Int → Option Binary64
  | 0, _, _ => none
  | fuel + 1, x, e =>
    if e.natAbs ≤ 308 then
      if 0 ≤ e then x.mul (powerOfTen e.natAbs) else x.div (powerOfTen e.natAbs)
    else if x.isZero then some x
    else if 0 ≤ e then none
    else (x.div (powerOfTen 308)).bind fun y => scale fuel y (e + 308)

def scaled (negative : Bool) (significand : Nat) (e : Int) : Option Number :=
  (scale 8 (Binary64.ofInt significand) e).map fun x =>
    .binary { x with negative := negative }

/-- A run of digits that is not empty, and what follows it. -/
def digitRun? (cs : List Char) : Option (List Char × List Char) :=
  match cs.takeWhile Char.isDigit with
  | [] => none
  | run => some (run,cs.dropWhile Char.isDigit)

/-- An exponent part, if the text starts with one, and nothing after it. -/
def exponent? : List Char → Option (Option Int)
  | [] => some none
  | e :: rest =>
    if e = 'e' ∨ e = 'E' then
      let (negative,digits) := match rest with
        | '-' :: r => (true,r)
        | '+' :: r => (false,r)
        | r => (false,r)
      match digitRun? digits with
      | some (run,[]) =>
        let value : Int := run.foldl (fun n c => n * 10 + digitValue c) 0
        some (some (if negative then -value else value))
      | _ => none
    else none

/-- A whole number without fraction and exponent. A negative zero and what does not fit 64 bits are
held as binary64. -/
def whole (negative : Bool) (significand : Nat) : Number :=
  if !negative then .integer significand
  else if significand = 0 ∨ Nat.pow 2 63 < significand then
    .binary { Binary64.ofInt significand with negative := true }
  else .integer (-significand)

/-- The number a lexeme of a document stands for. -/
def ofLexeme? (cs : List Char) : Option Number := do
  let (negative,unsigned) := match cs with
    | '-' :: r => (true,r)
    | r => (false,r)
  let (digits,rest) ← digitRun? unsigned
  if digits.length > 1 ∧ digits.head? = some '0' then none
  let (head,used) := absorb 0 digits
  let before : Int := digits.length - used
  match rest with
  | '.' :: r => do
    let (fraction,tail) ← digitRun? r
    let (significand,after) := absorb head fraction
    let e ← exponent? tail
    scaled negative significand (before - after + e.getD 0)
  | r => do
    match ← exponent? r with
    | some e => scaled negative head (before + e)
    | none => if before = 0 then some (whole negative head) else scaled negative head before

end Number

namespace Json

inductive Token where
  | beginArray
  | endArray
  | beginObject
  | endObject
  | comma
  | colon
  | string (value : String)
  | scalar (value : Json)

/-- Where the reader stands inside a quoted string. A high surrogate waits for its partner. -/
inductive QuoteMode where
  | plain
  | expectEscape (high : Nat)
  | escape (high : Option Nat)
  | hex (high : Option Nat) (count value : Nat)

/-- What the characters read so far have left open. -/
inductive Scan where
  | idle
  | lexeme (reversed : List Char)
  | quoted (mode : QuoteMode) (reversed : List Char)

def hexValue? (c : Char) : Option Nat :=
  if c.isDigit then some (c.toNat - '0'.toNat)
  else if 'a' ≤ c ∧ c ≤ 'f' then some (c.toNat - 'a'.toNat + 10)
  else if 'A' ≤ c ∧ c ≤ 'F' then some (c.toNat - 'A'.toNat + 10)
  else none

def isHighSurrogate (n : Nat) : Bool := 0xD800 ≤ n && n < 0xDC00
def isLowSurrogate (n : Nat) : Bool := 0xDC00 ≤ n && n < 0xE000

/-- A complete `\u` escape: a scalar value, the first half of a pair, or the second half. -/
def closeHex (high : Option Nat) (unit : Nat) (reversed : List Char) : Option Scan :=
  match high with
  | none =>
    if isHighSurrogate unit then some (.quoted (.expectEscape unit) reversed)
    else if isLowSurrogate unit then none
    else some (.quoted .plain (Char.ofNat unit :: reversed))
  | some h =>
    if isLowSurrogate unit then
      some (.quoted .plain
        (Char.ofNat (0x10000 + (h - 0xD800) * 0x400 + (unit - 0xDC00)) :: reversed))
    else none

def shortEscape? (c : Char) : Option Char :=
  match c with
  | '"' => some '"'
  | '\\' => some '\\'
  | '/' => some '/'
  | 'b' => some (Char.ofNat 8)
  | 'f' => some (Char.ofNat 12)
  | 'n' => some '\n'
  | 'r' => some '\r'
  | 't' => some '\t'
  | _ => none

/-- One character inside quotes; the closing quote yields the text. -/
def quotedStep (mode : QuoteMode) (reversed : List Char) (c : Char) : Option (Scan ⊕ String) :=
  match mode with
  | .plain =>
    if c = '"' then some (.inr (String.ofList reversed.reverse))
    else if c = '\\' then some (.inl (.quoted (.escape none) reversed))
    else if c.toNat < 32 then none
    else some (.inl (.quoted .plain (c :: reversed)))
  | .expectEscape high =>
    if c = '\\' then some (.inl (.quoted (.escape (some high)) reversed)) else none
  | .escape high =>
    if c = 'u' then some (.inl (.quoted (.hex high 0 0) reversed))
    else match high with
      | none => (shortEscape? c).map fun e => .inl (.quoted .plain (e :: reversed))
      | some _ => none
  | .hex high count value =>
    (hexValue? c).bind fun d =>
      if count = 3 then (closeHex high (value * 16 + d) reversed).map .inl
      else some (.inl (.quoted (.hex high (count + 1) (value * 16 + d)) reversed))

/-- A word or number that stands outside quotes. -/
def lexemeValue? (lexeme : List Char) : Option Json :=
  if lexeme = "null".toList then some .null
  else if lexeme = "true".toList then some (.bool true)
  else if lexeme = "false".toList then some (.bool false)
  else (Number.ofLexeme? lexeme).map .number

def isSpace (c : Char) : Bool := c = ' ' || c = '\t' || c = '\n' || c = '\r'

def punctuation? (c : Char) : Option Token :=
  match c with
  | '[' => some .beginArray
  | ']' => some .endArray
  | '\x7b' => some .beginObject
  | '\x7d' => some .endObject
  | ',' => some .comma
  | ':' => some .colon
  | _ => none

/-- One character between tokens. -/
def idleStep (tokens : List Token) (c : Char) : Scan × List Token :=
  if isSpace c then (.idle,tokens)
  else if c = '"' then (.quoted .plain [],tokens)
  else match punctuation? c with
    | some token => (.idle,token :: tokens)
    | none => (.lexeme [c],tokens)

def isDelimiter (c : Char) : Bool := isSpace c || c = '"' || (punctuation? c).isSome

/-- Read one character; the tokens so far are kept in reverse. -/
def scanStep (state : Scan × List Token) (c : Char) : Option (Scan × List Token) :=
  match state with
  | (.idle,tokens) => some (idleStep tokens c)
  | (.lexeme reversed,tokens) =>
    if isDelimiter c then
      (lexemeValue? reversed.reverse).map fun value => idleStep (.scalar value :: tokens) c
    else some (.lexeme (c :: reversed),tokens)
  | (.quoted mode reversed,tokens) =>
    match quotedStep mode reversed c with
    | none => none
    | some (.inl scan) => some (scan,tokens)
    | some (.inr text) => some (.idle,.string text :: tokens)

def tokens? (cs : List Char) : Option (List Token) :=
  match cs.foldlM scanStep (.idle,[]) with
  | some (.idle,tokens) => some tokens.reverse
  | some (.lexeme reversed,tokens) =>
    (lexemeValue? reversed.reverse).map fun value => (Token.scalar value :: tokens).reverse
  | _ => none

/-- An open array, or an open object with the key whose value is being read. -/
inductive Open where
  | array (reversed : List Json)
  | object (reversed : List (String × Json)) (key : String)

inductive Expect where
  | value
  | itemOrEnd
  | keyOrEnd (reversed : List (String × Json))
  | key (reversed : List (String × Json))
  | colon
  | afterValue (value : Json)

structure ParseState where
  stack : List Open
  expect : Expect

def beginArray (depth : Nat) (stack : List Open) : Option ParseState :=
  if stack.length < depth then some ⟨.array [] :: stack,.itemOrEnd⟩ else none

def beginObject (depth : Nat) (stack : List Open) : Option ParseState :=
  if stack.length < depth then some ⟨.object [] "" :: stack,.keyOrEnd []⟩ else none

/-- A token where a value must start. -/
def valueStep (depth : Nat) (stack : List Open) : Token → Option ParseState
  | .beginArray => beginArray depth stack
  | .beginObject => beginObject depth stack
  | .string s => some ⟨stack,.afterValue (.string s)⟩
  | .scalar v => some ⟨stack,.afterValue v⟩
  | _ => none

/-- A token after a complete value: it goes on with or closes what is open. -/
def afterStep (value : Json) : List Open → Token → Option ParseState
  | .array reversed :: stack, .comma => some ⟨.array (value :: reversed) :: stack,.value⟩
  | .array reversed :: stack, .endArray =>
    some ⟨stack,.afterValue (.array (value :: reversed).reverse)⟩
  | .object reversed key :: stack, .comma =>
    some ⟨.object [] "" :: stack,.key ((key,value) :: reversed)⟩
  | .object reversed key :: stack, .endObject =>
    some ⟨stack,.afterValue (.object ((key,value) :: reversed).reverse)⟩
  | _, _ => none

def keyStep (reversed : List (String × Json)) (stack : List Open) (key : String) :
    Option ParseState :=
  match stack with
  | .object _ _ :: rest => some ⟨.object reversed key :: rest,.colon⟩
  | _ => none

def parseStep (depth : Nat) (state : ParseState) (token : Token) : Option ParseState :=
  match state.expect, token with
  | .value, t => valueStep depth state.stack t
  | .itemOrEnd, .endArray => some ⟨state.stack.tail,.afterValue (.array [])⟩
  | .itemOrEnd, t => valueStep depth state.stack t
  | .keyOrEnd _, .endObject => some ⟨state.stack.tail,.afterValue (.object [])⟩
  | .keyOrEnd reversed, .string key => keyStep reversed state.stack key
  | .key reversed, .string key => keyStep reversed state.stack key
  | .colon, .colon => some ⟨state.stack,.value⟩
  | .afterValue value, t => afterStep value state.stack t
  | _, _ => none

/-- The value a document stands for, if it is one whose arrays and objects are nested at most as
deep as given. Repeated keys are kept as they stand. -/
def parseWithin? (depth : Nat) (text : String) : Option Json := do
  let tokens ← tokens? text.toList
  match ← tokens.foldlM (parseStep depth) ⟨[],.value⟩ with
  | ⟨[],.afterValue value⟩ => some value
  | _ => none

/-- Deepest nesting of arrays and objects in a document of a stranger. -/
def maxDepth : Nat := 127

def parse? (text : String) : Option Json := parseWithin? maxDepth text

end Json
end CoverageCounters

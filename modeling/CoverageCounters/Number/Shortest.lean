import CoverageCounters.Number.Binary64

/-!
The shortest decimal that reads back as a given binary64 number. For one digit, two digits and so
on, the two neighbours of the value on that decimal grid are tested against the interval of reals
that round to it; the first grid with a hit wins, and of two hits the nearer.
-/

namespace CoverageCounters

/-- The number `digits * 10 ^ exponent`. -/
structure Decimal where
  digits : Nat
  exponent : Int
  deriving DecidableEq, Repr

def decimalDigits (n : Nat) : List Char := Nat.toDigits 10 n

namespace Decimal

/-- Drop zeros at the end of the digits, at most `fuel` of them. -/
def trimZeros : Nat → Decimal → Decimal
  | 0, d => d
  | fuel + 1, d =>
    if d.digits ≠ 0 ∧ d.digits % 10 = 0 then trimZeros fuel ⟨d.digits / 10,d.exponent + 1⟩ else d

end Decimal

namespace Binary64

/-- The exponent of the leading decimal digit of `n / d`. -/
def leadingExponent (n d : Nat) : Int :=
  if d ≤ n then ((decimalDigits (n / d)).length : Int) - 1
  else -((((List.range 400).find? fun j => d ≤ n * Nat.pow 10 j).getD 0 : Nat) : Int)

/-- Whether the decimal `c * 10 ^ k` rounds to the number `x`. The interval runs half a unit to
either side, a quarter below a power of two, and holds its ends when the mantissa is even. -/
def readsBack (x : Binary64) (c : Nat) (k : Int) : Bool :=
  let below := if x.mantissa = Nat.pow 2 52 ∧ minExponent < x.exponent then 1 else 2
  let low := 4 * x.mantissa - below
  let high := 4 * x.mantissa + 2
  let (num,den) := if 0 ≤ k then (c * Nat.pow 10 k.toNat,1) else (c,Nat.pow 10 (-k).toNat)
  let (a,b) := inUnits num den (x.exponent - 2)
  if x.mantissa % 2 = 0 then low * b ≤ a && a ≤ high * b else low * b < a && a < high * b

/-- The neighbour of `x` on the grid of multiples of `10 ^ k` that reads back, if there is one;
the nearer of two, a tie going to the even digit. -/
def onGrid? (x : Binary64) (k : Int) : Option Nat :=
  let (n,d) := x.ratio
  let (a,b) := if 0 ≤ k then (n,d * Nat.pow 10 k.toNat) else (n * Nat.pow 10 (-k).toNat,d)
  let c := a / b
  match readsBack x c k, readsBack x (c + 1) k with
  | true, true => some (roundDiv a b)
  | true, false => some c
  | false, true => some (c + 1)
  | false, false => none

def shortest (x : Binary64) : Decimal :=
  if x.isZero then ⟨0,0⟩
  else
    let top := leadingExponent x.ratio.1 x.ratio.2
    let hit := (List.range 17).findSome? fun (i : Nat) =>
      (onGrid? x (top - i)).map fun c => (c,top - i)
    match hit with
    | some (c,k) => Decimal.trimZeros 20 ⟨c,k⟩
    | none => ⟨0,0⟩

end Binary64

/-- Where a decimal is written out in full: its leading digit lies at least at `10 ^ least` and
below `10 ^ most`. -/
structure PositionalRange where
  least : Int
  most : Int

namespace Decimal

/-- Digits with a point among them, zeros filled in on either side. A whole number gets the text
`whole` at its end. -/
def positional (d : Decimal) (whole : List Char) : List Char :=
  let ds := decimalDigits d.digits
  let point : Int := ds.length + d.exponent
  if 0 ≤ d.exponent then ds ++ List.replicate d.exponent.toNat '0' ++ whole
  else if 0 < point then ds.take point.toNat ++ '.' :: ds.drop point.toNat
  else '0' :: '.' :: (List.replicate (-point).toNat '0' ++ ds)

/-- One digit before the point and a power of ten, which carries its sign. -/
def scientific (d : Decimal) : List Char :=
  let ds := decimalDigits d.digits
  let e : Int := ds.length + d.exponent - 1
  let mark := 'e' :: (if e < 0 then '-' else '+') :: decimalDigits e.natAbs
  match ds with
  | [c] => c :: mark
  | c :: rest => c :: '.' :: (rest ++ mark)
  | [] => mark

def write (range : PositionalRange) (whole : List Char) (d : Decimal) : List Char :=
  let point : Int := (decimalDigits d.digits).length + d.exponent
  if range.least < point ∧ point ≤ range.most then d.positional whole else d.scientific

end Decimal

namespace Binary64

def signText (x : Binary64) : List Char := if x.negative then ['-'] else []

/-- Text of a number in a JSON document: positional from `0.00001` to below `10 ^ 16`, a whole
number keeping `.0`. -/
def jsonText (x : Binary64) : List Char :=
  x.signText ++ x.shortest.write ⟨-5,16⟩ ['.','0']

/-- Text of a number as a property name: positional at any size, a whole number without point. -/
def plainText (x : Binary64) : List Char :=
  x.signText ++ x.shortest.positional []

end Binary64
end CoverageCounters

/-!
Finite binary64 numbers, held exactly as a sign, a mantissa and a power of two. Arithmetic is done
on natural numbers and rounded once, to the nearest representable value, ties to the even mantissa.
-/

namespace CoverageCounters

/-- The number `± mantissa * 2 ^ exponent`. -/
structure Binary64 where
  negative : Bool
  mantissa : Nat
  exponent : Int
  deriving DecidableEq, Repr

/-- The quotient `n / d` rounded to the nearest natural number, ties to the even one. -/
def roundDiv (n d : Nat) : Nat :=
  let q := n / d
  let r := n % d
  if 2 * r < d then q
  else if d < 2 * r then q + 1
  else if q % 2 = 0 then q else q + 1

@[simp] theorem roundDiv_one (n : Nat) : roundDiv n 1 = n := by
  simp [roundDiv,Nat.mod_one]

namespace Binary64

/-- The least exponent, shared by zero and the subnormal numbers. -/
def minExponent : Int := -1074

/-- The exponent of the largest finite numbers. -/
def maxExponent : Int := 971

def zero (negative : Bool) : Binary64 := ⟨negative,0,minExponent⟩

/-- The rational `n / d` counted in units of `2 ^ e`, as a fraction. -/
def inUnits (n d : Nat) (e : Int) : Nat × Nat :=
  if 0 ≤ e then (n,d * Nat.pow 2 e.toNat) else (n * Nat.pow 2 (-e).toNat,d)

/-- The unit in the last place for a value of the size of `n / d`. -/
def unitExponent (n d : Nat) : Int :=
  let e : Int := (n.log2 : Int) - d.log2 - 52
  let (a,b) := inUnits n d e
  max (if a < b * Nat.pow 2 52 then e - 1 else e) minExponent

/-- The nearest binary64 to `± n / d`, or `none` when it is out of range. -/
def ofRatio (negative : Bool) (n d : Nat) : Option Binary64 :=
  if n = 0 then some (zero negative)
  else
    let e := unitExponent n d
    let (a,b) := inUnits n d e
    let m := roundDiv a b
    let x : Binary64 :=
      if m = Nat.pow 2 53 then ⟨negative,Nat.pow 2 52,e + 1⟩ else ⟨negative,m,e⟩
    if maxExponent < x.exponent then none else some x

def ratio (x : Binary64) : Nat × Nat :=
  if 0 ≤ x.exponent then (x.mantissa * Nat.pow 2 x.exponent.toNat,1)
  else (x.mantissa,Nat.pow 2 (-x.exponent).toNat)

def isZero (x : Binary64) : Bool := x.mantissa = 0

def neg (x : Binary64) : Binary64 := { x with negative := !x.negative }

def mul (x y : Binary64) : Option Binary64 :=
  ofRatio (x.negative != y.negative) (x.ratio.1 * y.ratio.1) (x.ratio.2 * y.ratio.2)

def div (x y : Binary64) : Option Binary64 :=
  ofRatio (x.negative != y.negative) (x.ratio.1 * y.ratio.2) (x.ratio.2 * y.ratio.1)

/-- The nearest binary64 to an integer of fewer than a thousand bits. -/
def ofInt (n : Int) : Binary64 :=
  (ofRatio (n < 0) n.natAbs 1).getD (zero false)

/-- The integer a number is equal to, if it is one. -/
def toInt? (x : Binary64) : Option Int :=
  let (n,d) := x.ratio
  if n % d = 0 then some (if x.negative then -((n / d : Nat) : Int) else ((n / d : Nat) : Int))
  else none

/-- Strictly below zero; a negative zero is not. -/
def isNegative (x : Binary64) : Bool := x.negative && !x.isZero

end Binary64
end CoverageCounters

import CoverageCounters.Digest.Sha256

/-!
The name of a file's counter object: `cov_` and the first 48 bits of the digest of its path, written
in base 36.
-/

namespace CoverageCounters

def base36Digit (n : Nat) : Char :=
  if n < 10 then Char.ofNat ('0'.toNat + n) else Char.ofNat ('a'.toNat + (n - 10))

/-- Digits of `n` in base 36 in front of `rest`, none for zero. -/
def base36Onto (n : Nat) (rest : List Char) : List Char :=
  if h : n = 0 then rest
  else base36Onto (n / 36) (base36Digit (n % 36) :: rest)
termination_by n
decreasing_by omega

/-- A number in base 36 without leading zeros; zero is a single digit. -/
def base36 (n : Nat) : List Char := if n = 0 then ['0'] else base36Onto n []

/-- The number a list of bytes spells, most significant first. -/
def ofBytes (bytes : List UInt8) : Nat := bytes.foldl (fun n byte => n * 256 + byte.toNat) 0

@[simp] theorem ofBytes_nil : ofBytes [] = 0 := rfl

/-- How many bytes of the digest the identifier keeps. -/
def identifierBytes : Nat := 6

/-- The part of the path's digest that the identifier shows. -/
def pathNumber (path : String) : Nat := ofBytes ((Sha256.ofText path).take identifierBytes)

def identifierOf (path : String) : String :=
  String.ofList ('c' :: 'o' :: 'v' :: '_' :: base36 (pathNumber path))

end CoverageCounters

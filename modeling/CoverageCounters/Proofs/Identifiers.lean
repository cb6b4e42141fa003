import Mathlib.Data.Nat.Digits.Lemmas
import CoverageCounters.Identifier

/-!
Identifiers as numbers. The digits of a number in base 36 are its digits to that base, most significant
first, so they read back as the number, and an identifier tells the bytes of the digest it was made from.
Main statement: two paths share an identifier just when the first 48 bits of their digests agree.
-/

namespace CoverageCounters

/-- What a list of digits spells to a base, most significant first. -/
def positional {α : Type} (base : Nat) (value : α → Nat) (digits : List α) : Nat :=
  digits.foldl (fun n d => n * base + value d) 0

theorem positional_eq_ofDigits {α : Type} (base : Nat) (value : α → Nat) (digits : List α) :
    positional base value digits = Nat.ofDigits base (digits.reverse.map value) := by
  induction digits using List.reverseRecOn with
  | nil => rfl
  | append_singleton ds d ih =>
    have hs : positional base value (ds ++ [d]) = positional base value ds * base + value d := by
      simp [positional]
    rw [hs,ih,List.reverse_append,List.reverse_singleton,List.singleton_append,List.map_cons,
      Nat.ofDigits_cons]
    ring

section Base36

/-- The digits of base 36 by their values. -/
def base36Alphabet : List Char := "0123456789abcdefghijklmnopqrstuvwxyz".toList

def base36Value (c : Char) : Nat := base36Alphabet.idxOf c

/-- The number a text in base 36 stands for. -/
def readBase36 : List Char → Nat := positional 36 base36Value

/-- A text is the numeral of a number: digits that stand for it, with no zero in front. -/
structure IsBase36 (n : Nat) (text : List Char) : Prop where
  ne_nil : text ≠ []
  digits : ∀ c ∈ text, c ∈ base36Alphabet
  head_ne : n ≠ 0 → text.head? ≠ some '0'
  value : readBase36 text = n

theorem base36Digit_mem {d : Nat} (h : d < 36) : base36Digit d ∈ base36Alphabet := by
  revert d
  decide

theorem base36Value_digit {d : Nat} (h : d < 36) : base36Value (base36Digit d) = d := by
  revert d
  decide

theorem base36Onto_eq (n : Nat) (rest : List Char) :
    base36Onto n rest = ((Nat.digits 36 n).reverse.map base36Digit) ++ rest := by
  induction n, rest using base36Onto.induct with
  | case1 rest => simp [base36Onto]
  | case2 n rest h ih =>
    rw [base36Onto,dif_neg h,ih,Nat.digits_def' (by decide) (Nat.pos_of_ne_zero h)]
    simp

theorem base36_zero : base36 0 = [base36Digit 0] := rfl

theorem base36_eq {n : Nat} (h : n ≠ 0) : base36 n = (Nat.digits 36 n).reverse.map base36Digit := by
  rw [base36,if_neg h,base36Onto_eq,List.append_nil]

theorem readBase36_map {ds : List Nat} (h : ∀ d ∈ ds, d < 36) :
    readBase36 (ds.reverse.map base36Digit) = Nat.ofDigits 36 ds := by
  have hm : ds.map (fun d => base36Value (base36Digit d)) = ds :=
    List.map_congr_left (fun d hd => base36Value_digit (h d hd)) |>.trans (List.map_id' ds)
  rw [readBase36,positional_eq_ofDigits,← List.map_reverse,List.reverse_reverse,List.map_map]
  exact congrArg (Nat.ofDigits 36) hm

theorem isBase36_base36 (n : Nat) : IsBase36 n (base36 n) := by
  by_cases h : n = 0
  · subst h
    rw [base36_zero]
    refine ⟨List.cons_ne_nil _ _,fun c hc => ?_,fun hn => absurd rfl hn,?_⟩
    · exact List.mem_singleton.mp hc ▸ base36Digit_mem (by decide)
    · change 0 * 36 + base36Value (base36Digit 0) = 0
      rw [base36Value_digit (by decide)]
  have hd : ∀ d ∈ Nat.digits 36 n, d < 36 := fun d hd => Nat.digits_lt_base (by decide) hd
  have hn : Nat.digits 36 n ≠ [] := Nat.digits_ne_nil_iff_ne_zero.mpr h
  rw [base36_eq h]
  refine ⟨by simpa using hn,fun c hc => ?_,fun _ hz => ?_,?_⟩
  · obtain ⟨d,hm,rfl⟩ := List.mem_map.mp hc
    exact base36Digit_mem (hd d (List.mem_reverse.mp hm))
  · rw [List.head?_map,List.head?_reverse,List.getLast?_eq_getLast_of_ne_nil hn] at hz
    have hl := hd _ (List.getLast_mem hn)
    have hv := base36Value_digit hl
    rw [Option.some.inj hz] at hv
    exact Nat.getLast_digit_ne_zero 36 h hv.symm
  · rw [readBase36_map hd,Nat.ofDigits_digits]

theorem base36_injective : Function.Injective base36 := fun m n h => by
  rw [← (isBase36_base36 m).value,h,(isBase36_base36 n).value]

/-- Ten digits are enough for 48 bits. -/
theorem length_base36_le {n : Nat} (h : n < 2 ^ 48) : (base36 n).length ≤ 10 := by
  by_cases hz : n = 0
  · subst hz
    decide
  · rw [base36_eq hz,List.length_map,List.length_reverse]
    exact (Nat.digits_length_le_iff (by decide) n).mpr (h.trans (by decide))

example : base36 (2 ^ 48 - 1) = "2rrvthnxtr".toList := by decide +kernel

end Base36

section Bytes

theorem ofBytes_eq_positional (bytes : List UInt8) : ofBytes bytes = positional 256 UInt8.toNat bytes :=
  rfl

theorem ofBytes_lt (bytes : List UInt8) : ofBytes bytes < 256 ^ bytes.length := by
  rw [ofBytes_eq_positional,positional_eq_ofDigits]
  simpa using Nat.ofDigits_lt_base_pow_length (b := 256) (l := bytes.reverse.map UInt8.toNat) (by decide)
    (by simpa using fun b _ => b.toNat_lt)

theorem ofBytes_inj {as bs : List UInt8} (h : as.length = bs.length) :
    ofBytes as = ofBytes bs ↔ as = bs := by
  refine ⟨fun he => ?_,congrArg ofBytes⟩
  rw [ofBytes_eq_positional,ofBytes_eq_positional,positional_eq_ofDigits,positional_eq_ofDigits] at he
  have hlt : ∀ cs : List UInt8, ∀ d ∈ cs.reverse.map UInt8.toNat, d < 256 := by
    intro cs d hd
    obtain ⟨c,-,rfl⟩ := List.mem_map.mp hd
    exact c.toNat_lt
  have hm := Nat.ofDigits_inj_of_len_eq (by decide) (by simpa using h) (hlt as) (hlt bs) he
  exact List.reverse_injective (List.map_injective_iff.mpr (fun _ _ => UInt8.toNat_inj.mp) hm)

def byteBits (byte : UInt8) : List Bool := (List.range 8).map fun i => byte.toNat.testBit (7 - i)

def bits (bytes : List UInt8) : List Bool := bytes.flatMap byteBits

@[simp] theorem length_byteBits (byte : UInt8) : (byteBits byte).length = 8 := by simp [byteBits]

theorem byteBits_injective : Function.Injective byteBits := by
  intro a b h
  refine UInt8.toNat_inj.mp (Nat.eq_of_testBit_eq fun i => ?_)
  by_cases hi : i < 8
  · have hm := List.map_inj_left.mp h (7 - i) (List.mem_range.mpr (by omega))
    rwa [Nat.sub_sub_self (by omega)] at hm
  · have hp : 2 ^ 8 ≤ 2 ^ i := Nat.pow_le_pow_right (by decide) (by omega)
    rw [Nat.testBit_lt_two_pow (a.toNat_lt.trans_le hp),Nat.testBit_lt_two_pow (b.toNat_lt.trans_le hp)]

theorem length_bits (bytes : List UInt8) : (bits bytes).length = 8 * bytes.length := by
  induction bytes with
  | nil => rfl
  | cons b bs ih =>
    rw [bits,List.flatMap_cons,List.length_append,length_byteBits,← bits,ih,List.length_cons]
    ring

theorem bits_injective : Function.Injective bits := by
  intro as
  induction as with
  | nil =>
    intro bs h
    cases bs with
    | nil => rfl
    | cons b bs => exact absurd (congrArg List.length h) (by simp [length_bits])
  | cons a as ih =>
    intro bs h
    cases bs with
    | nil => exact absurd (congrArg List.length h) (by simp [length_bits])
    | cons b bs =>
      obtain ⟨ha,hs⟩ := List.append_inj (by simpa [bits] using h) (by simp)
      rw [byteBits_injective ha,ih hs]

theorem take_bits (count : Nat) (bytes : List UInt8) :
    (bits bytes).take (8 * count) = bits (bytes.take count) := by
  induction count generalizing bytes with
  | zero => simp [bits]
  | succ count ih =>
    cases bytes with
    | nil => rfl
    | cons b bs =>
      have hb : bits (b :: bs) = byteBits b ++ bits bs := List.flatMap_cons
      rw [hb,Nat.mul_succ,Nat.add_comm,List.take_add]
      rw [List.take_left' (length_byteBits b),List.drop_left' (length_byteBits b),ih]
      rfl

end Bytes

section Identifiers

theorem length_pathBytes (path : String) :
    ((Sha256.ofText path).take identifierBytes).length = identifierBytes := by
  simp [Sha256.ofText,identifierBytes]

theorem pathNumber_lt (path : String) : pathNumber path < 2 ^ 48 := by
  have h := ofBytes_lt ((Sha256.ofText path).take identifierBytes)
  rwa [length_pathBytes] at h

/-- A path's number is what the first 48 bits of its digest say. -/
theorem pathNumber_eq_iff (p q : String) : pathNumber p = pathNumber q ↔
    (bits (Sha256.ofText p)).take 48 = (bits (Sha256.ofText q)).take 48 := by
  have hb : ∀ path, (bits (Sha256.ofText path)).take 48 = bits ((Sha256.ofText path).take identifierBytes) :=
    fun path => take_bits identifierBytes _
  rw [hb p,hb q,bits_injective.eq_iff]
  exact ofBytes_inj ((length_pathBytes p).trans (length_pathBytes q).symm)

theorem toList_identifierOf (path : String) :
    (identifierOf path).toList = "cov_".toList ++ base36 (pathNumber path) :=
  String.toList_ofList

theorem identifierOf_eq_iff (p q : String) : identifierOf p = identifierOf q ↔
    pathNumber p = pathNumber q := by
  rw [← String.toList_inj,toList_identifierOf,toList_identifierOf,List.append_cancel_left_eq,
    base36_injective.eq_iff]

/-- Numerals in base 36 are exact and identifiers are short numerals behind `cov_`, which are the same for
two paths just when the first 48 bits of their digests are. -/
theorem identifiers_exact :
    (∀ n, IsBase36 n (base36 n)) ∧ Function.Injective base36 ∧
    (∀ n < 2 ^ 48, (base36 n).length ≤ 10) ∧
    (∀ path, ∃ tail, (identifierOf path).toList = "cov_".toList ++ tail ∧
      1 ≤ tail.length ∧ tail.length ≤ 10 ∧ ∀ c ∈ tail, c ∈ base36Alphabet) ∧
    ∀ p q, identifierOf p = identifierOf q ↔
      (bits (Sha256.ofText p)).take 48 = (bits (Sha256.ofText q)).take 48 := by
  refine ⟨isBase36_base36,base36_injective,fun n => length_base36_le,fun path => ?_,fun p q => ?_⟩
  · have hn := isBase36_base36 (pathNumber path)
    exact ⟨_,toList_identifierOf path,List.length_pos_iff.mpr hn.ne_nil,
      length_base36_le (pathNumber_lt path),hn.digits⟩
  · exact (identifierOf_eq_iff p q).trans (pathNumber_eq_iff p q)

end Identifiers

end CoverageCounters

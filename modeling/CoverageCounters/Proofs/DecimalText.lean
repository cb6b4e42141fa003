import Mathlib.Algebra.Order.Field.Rat
import Mathlib.Data.List.TakeWhile
import Mathlib.Tactic.Ring
import CoverageCounters.Number.Shortest

/-!
Reading the text of a decimal. The digits on both sides of the point are one number, and the point and
the power of ten say how far it is moved. Main statement: what is written reads as the decimal's value,
wherever the text leaves positional notation.
-/

namespace CoverageCounters

theorem isDigit_of_mem_decimalDigits {n : Nat} {c : Char} (h : c ∈ decimalDigits n) :
    c.isDigit = true :=
  Nat.isDigit_of_mem_toDigits (by decide) (by decide) h

@[simp] theorem ofDigitChars_decimalDigits (n : Nat) :
    Nat.ofDigitChars 10 (decimalDigits n) 0 = n :=
  Nat.ofDigitChars_ten_toDigits

theorem decimalDigits_ne_nil (n : Nat) : decimalDigits n ≠ [] := Nat.toDigits_ne_nil

theorem length_decimalDigits_pos (n : Nat) : 0 < (decimalDigits n).length :=
  List.length_pos_iff.mpr (decimalDigits_ne_nil n)

theorem decimalDigits_inj {m n : Nat} : decimalDigits m = decimalDigits n ↔ m = n := by
  refine ⟨fun h => ?_,congrArg decimalDigits⟩
  rw [← ofDigitChars_decimalDigits m,h,ofDigitChars_decimalDigits]

/-- Whether a character can stand in the text of a number. -/
def isNumberChar (c : Char) : Bool := c.isDigit || c = '.' || c = 'e' || c = '+' || c = '-'

theorem isNumberChar_of_isDigit {c : Char} (h : c.isDigit = true) : isNumberChar c = true := by
  simp [isNumberChar,h]

namespace Decimal

def value (d : Decimal) : Rat := d.digits * (10 : Rat) ^ d.exponent

def pointValue (cs : List Char) : Rat :=
  let whole := cs.takeWhile (· ≠ '.')
  let fraction := (cs.dropWhile (· ≠ '.')).tail
  Nat.ofDigitChars 10 (whole ++ fraction) 0 * (10 : Rat) ^ (-(fraction.length : Int))

/-- The power of ten behind its mark and its sign. -/
def power : List Char → Int
  | _ :: '-' :: ds => -(Nat.ofDigitChars 10 ds 0 : Int)
  | _ :: _ :: ds => Nat.ofDigitChars 10 ds 0
  | _ => 0

def textValue (cs : List Char) : Rat :=
  pointValue (cs.takeWhile (· ≠ 'e')) * (10 : Rat) ^ power (cs.dropWhile (· ≠ 'e'))

section Point

variable {whole : List Char}

theorem ne_point_of_isDigit {c : Char} (h : c.isDigit = true) : decide (c ≠ '.') = true := by
  rw [decide_eq_true_iff]
  rintro rfl
  exact absurd h (by decide)

theorem pointValue_append (whole fraction : List Char) (hw : ∀ c ∈ whole, c.isDigit = true) :
    pointValue (whole ++ '.' :: fraction) =
      Nat.ofDigitChars 10 (whole ++ fraction) 0 * (10 : Rat) ^ (-(fraction.length : Int)) := by
  have hp : ∀ c ∈ whole, decide (c ≠ '.') = true := fun c hc => ne_point_of_isDigit (hw c hc)
  simp only [pointValue,List.takeWhile_append_of_pos hp,List.dropWhile_append_of_pos hp]
  simp

theorem pointValue_digits (hw : ∀ c ∈ whole, c.isDigit = true) :
    pointValue whole = Nat.ofDigitChars 10 whole 0 := by
  have ht : whole.takeWhile (· ≠ '.') = whole :=
    List.takeWhile_eq_self_iff.mpr fun c hc => ne_point_of_isDigit (hw c hc)
  have hd : whole.dropWhile (· ≠ '.') = [] :=
    List.dropWhile_eq_nil_iff.mpr fun c hc => ne_point_of_isDigit (hw c hc)
  simp only [pointValue,ht,hd]
  simp

theorem textValue_of_unmarked {cs : List Char} (h : ∀ c ∈ cs, c ≠ 'e') :
    textValue cs = pointValue cs := by
  have ht : cs.takeWhile (· ≠ 'e') = cs :=
    List.takeWhile_eq_self_iff.mpr fun c hc => decide_eq_true (h c hc)
  have hd : cs.dropWhile (· ≠ 'e') = [] :=
    List.dropWhile_eq_nil_iff.mpr fun c hc => decide_eq_true (h c hc)
  simp only [textValue,ht,hd,power]
  simp

theorem textValue_marked {cs mark : List Char} (h : ∀ c ∈ cs, c ≠ 'e') :
    textValue (cs ++ 'e' :: mark) = pointValue cs * (10 : Rat) ^ power ('e' :: mark) := by
  have hp : ∀ c ∈ cs, decide (c ≠ 'e') = true := fun c hc => decide_eq_true (h c hc)
  simp only [textValue,List.takeWhile_append_of_pos hp,List.dropWhile_append_of_pos hp]
  simp

end Point

/-- A power of ten with its sign reads as that power. -/
theorem power_mark (e : Int) :
    power ('e' :: (if e < 0 then '-' else '+') :: decimalDigits e.natAbs) = e := by
  by_cases he : e < 0
  · rw [if_pos he,power,ofDigitChars_decimalDigits]
    omega
  · rw [if_neg he]
    change ((Nat.ofDigitChars 10 (decimalDigits e.natAbs) 0 : Nat) : Int) = e
    rw [ofDigitChars_decimalDigits]
    omega

theorem ten_zpow_add (a b : Int) : (10 : Rat) ^ (a + b) = 10 ^ a * 10 ^ b :=
  zpow_add₀ (by norm_num) a b

/-- The text in positional notation has a point between digits, and reads as the value. -/
theorem exists_positional (d : Decimal) : ∃ whole fraction : List Char,
    d.positional ['.','0'] = whole ++ '.' :: fraction ∧ whole ≠ [] ∧
      (∀ c ∈ whole ++ fraction, c.isDigit = true) ∧
      Nat.ofDigitChars 10 (whole ++ fraction) 0 * (10 : Rat) ^ (-(fraction.length : Int)) = d.value := by
  have hds : ∀ c ∈ decimalDigits d.digits, c.isDigit = true :=
    fun c hc => isDigit_of_mem_decimalDigits hc
  have hz : ∀ n, ∀ c ∈ List.replicate n '0', c.isDigit = true := by
    intro n c hc
    rw [List.eq_of_mem_replicate hc]
    rfl
  have hlen := length_decimalDigits_pos d.digits
  unfold positional
  by_cases he : 0 ≤ d.exponent
  · refine ⟨decimalDigits d.digits ++ List.replicate d.exponent.toNat '0',['0'],?_,?_,?_,?_⟩
    · rw [if_pos he]
    · exact List.append_ne_nil_of_left_ne_nil (decimalDigits_ne_nil _) _
    · intro c hc
      rcases List.mem_append.mp hc with hc | hc
      · exact (List.mem_append.mp hc).elim (hds c) (hz _ c)
      · exact hz 1 c hc
    · have hn : ['0'] = List.replicate 1 '0' := rfl
      rw [hn,Nat.ofDigitChars_append,Nat.ofDigitChars_append,ofDigitChars_decimalDigits,
        Nat.ofDigitChars_replicate_zero,Nat.ofDigitChars_replicate_zero,value]
      have hexp : (10 : Rat) ^ d.exponent = 10 ^ d.exponent.toNat := by
        rw [← zpow_natCast,Int.toNat_of_nonneg he]
      rw [hexp]
      push_cast
      norm_num
      ring
  · rw [if_neg he]
    by_cases hp : 0 < ((decimalDigits d.digits).length : Int) + d.exponent
    · refine ⟨(decimalDigits d.digits).take (((decimalDigits d.digits).length : Int) + d.exponent).toNat,
        (decimalDigits d.digits).drop (((decimalDigits d.digits).length : Int) + d.exponent).toNat,
        ?_,?_,?_,?_⟩
      · rw [if_pos hp]
      · rw [← List.length_pos_iff,List.length_take]
        omega
      · rw [List.take_append_drop]
        exact hds
      · rw [List.take_append_drop,ofDigitChars_decimalDigits,List.length_drop,value]
        congr 2
        omega
    · refine ⟨['0'],List.replicate (-(((decimalDigits d.digits).length : Int) + d.exponent)).toNat '0' ++
        decimalDigits d.digits,?_,List.cons_ne_nil _ _,?_,?_⟩
      · rw [if_neg hp]
        rfl
      · intro c hc
        rcases List.mem_append.mp hc with hc | hc
        · exact hz 1 c hc
        · exact (List.mem_append.mp hc).elim (hz _ c) (hds c)
      · have hn : ['0'] = List.replicate 1 '0' := rfl
        rw [hn,Nat.ofDigitChars_append,Nat.ofDigitChars_append,Nat.ofDigitChars_replicate_zero,
          Nat.ofDigitChars_replicate_zero,Nat.mul_zero,ofDigitChars_decimalDigits,value,List.length_append,
          List.length_replicate]
        congr 2
        omega

/-- The text in scientific notation has a digit in front, and reads as the value. -/
theorem exists_scientific (d : Decimal) : ∃ c cs e,
    d.scientific = c :: cs ++ 'e' :: (if e < 0 then '-' else '+') :: decimalDigits (Int.natAbs e) ∧
      c.isDigit = true ∧ (∀ x ∈ cs, x.isDigit = true ∨ x = '.') ∧
      pointValue (c :: cs) * (10 : Rat) ^ e = d.value := by
  have hds : ∀ c ∈ decimalDigits d.digits, c.isDigit = true :=
    fun c hc => isDigit_of_mem_decimalDigits hc
  have hv : Nat.ofDigitChars 10 (decimalDigits d.digits) 0 = d.digits := ofDigitChars_decimalDigits _
  have hne := decimalDigits_ne_nil d.digits
  unfold scientific
  generalize decimalDigits d.digits = ds at hds hv hne ⊢
  match ds, hds, hv with
  | [], _, _ => exact absurd rfl hne
  | [c], hds, hv =>
    refine ⟨c,[],_,rfl,hds c List.mem_cons_self,nofun,?_⟩
    rw [pointValue_digits hds,hv,value]
    congr 2
    simp
  | c :: c' :: rest, hds, hv =>
    refine ⟨c,'.' :: c' :: rest,_,rfl,hds c List.mem_cons_self,?_,?_⟩
    · intro x hx
      rcases List.mem_cons.mp hx with hx | hx
      · exact .inr hx
      · exact .inl (hds x (List.mem_cons_of_mem _ hx))
    · have hp := pointValue_append [c] (c' :: rest)
        fun x hx => hds x (List.mem_singleton.mp hx ▸ List.mem_cons_self)
      rw [List.singleton_append,List.singleton_append,hv] at hp
      rw [hp,value,mul_assoc,← ten_zpow_add]
      congr 2
      simp only [List.length_cons]
      push_cast
      ring

theorem ne_mark_of_digit_or_point {c : Char} (h : c.isDigit = true ∨ c = '.') : c ≠ 'e' := by
  rintro rfl
  exact absurd h (by decide)

/-- What is written for a decimal reads as its value. -/
theorem textValue_write (range : PositionalRange) (d : Decimal) :
    textValue (d.write range ['.','0']) = d.value := by
  rw [write]
  split
  · obtain ⟨whole,fraction,ht,-,hd,hv⟩ := d.exists_positional
    rw [ht,textValue_of_unmarked,pointValue_append _ _ fun c hc => hd c (List.mem_append_left _ hc),hv]
    intro c hc
    refine ne_mark_of_digit_or_point ?_
    rcases List.mem_append.mp hc with hc | hc
    · exact .inl (hd c (List.mem_append_left _ hc))
    · exact (List.mem_cons.mp hc).symm.imp (fun hc => hd c (List.mem_append_right _ hc)) id
  · obtain ⟨c,cs,e,ht,hc,hcs,hv⟩ := d.exists_scientific
    rw [ht,textValue_marked,power_mark,hv]
    intro x hx
    rcases List.mem_cons.mp hx with rfl | hx
    · exact ne_mark_of_digit_or_point (.inl hc)
    · exact ne_mark_of_digit_or_point (hcs x hx)

theorem exists_write (range : PositionalRange) (d : Decimal) : ∃ c cs,
    d.write range ['.','0'] = c :: cs ∧ c.isDigit = true ∧ (∀ x ∈ cs, isNumberChar x = true) ∧ ∃ x ∈ cs, x.isDigit = false := by
  rw [write]
  split
  · obtain ⟨whole,fraction,ht,hne,hd,-⟩ := d.exists_positional
    obtain ⟨c,cs,rfl⟩ := List.exists_cons_of_ne_nil hne
    refine ⟨c,cs ++ '.' :: fraction,ht,hd c (by simp),fun x hx => ?_,'.',by simp,rfl⟩
    simp only [List.mem_append,List.mem_cons] at hx
    rcases hx with hx | rfl | hx
    · exact isNumberChar_of_isDigit (hd x (by simp [hx]))
    · rfl
    · exact isNumberChar_of_isDigit (hd x (by simp [hx]))
  · obtain ⟨c,cs,e,ht,hc,hcs,-⟩ := d.exists_scientific
    refine ⟨c,_,ht,hc,fun x hx => ?_,'e',by simp,rfl⟩
    simp only [List.append_eq,List.mem_append,List.mem_cons] at hx
    rcases hx with hx | rfl | rfl | hx
    · rcases hcs x hx with hx | rfl
      · exact isNumberChar_of_isDigit hx
      · rfl
    · rfl
    · split <;> rfl
    · exact isNumberChar_of_isDigit (isDigit_of_mem_decimalDigits hx)

end Decimal
end CoverageCounters

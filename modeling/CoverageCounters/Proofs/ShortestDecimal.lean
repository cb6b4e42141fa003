import Mathlib.Tactic.Linarith
import CoverageCounters.Json.Printer
import CoverageCounters.Proofs.DecimalText

/-!
The shortest decimal of a number. The reals that round to a number form an interval, the intervals of
two numbers have nothing in common, and seventeen digits always reach into it. So the decimal that is
written tells the number, and no two numbers have the same text.
-/

namespace CoverageCounters

theorem roundDiv_eq (n d : Nat) : roundDiv n d = n / d ∨ roundDiv n d = n / d + 1 := by
  unfold roundDiv
  dsimp only
  split_ifs
  · exact .inl rfl
  · exact .inr rfl
  · exact .inl rfl
  · exact .inr rfl

theorem two_zpow_pos (e : Int) : (0 : Rat) < 2 ^ e := zpow_pos (by norm_num) e

theorem ten_zpow_pos (e : Int) : (0 : Rat) < 10 ^ e := zpow_pos (by norm_num) e

@[simp] theorem Decimal.value_trimZeros (fuel : Nat) (d : Decimal) :
    (d.trimZeros fuel).value = d.value := by
  induction fuel generalizing d with
  | zero => rfl
  | succ fuel ih =>
    rw [trimZeros]
    split
    · rename_i h
      have hd : (d.digits : Rat) = (d.digits / 10 : Nat) * 10 := by
        exact_mod_cast (Nat.div_mul_cancel (Nat.dvd_of_mod_eq_zero h.2)).symm
      rw [ih,value,value,hd,ten_zpow_add]
      norm_num
      ring
    · rfl

namespace Binary64

/-- A number as binary64 holds it: 53 bits, and fewer only at the least exponent. -/
structure Proper (x : Binary64) : Prop where
  mantissa_lt : x.mantissa < 2 ^ 53
  minExponent_le : minExponent ≤ x.exponent
  normal : minExponent < x.exponent → 2 ^ 52 ≤ x.mantissa

/-- The size of a number. -/
def size (x : Binary64) : Rat := x.mantissa * (2 : Rat) ^ x.exponent

/-- Quarters of a unit from a number down to the numbers that round to it. -/
def below (x : Binary64) : Nat :=
  if x.mantissa = 2 ^ 52 ∧ minExponent < x.exponent then 1 else 2

/-- Whether a rational rounds to the size of a number: it lies half a unit to either side at most, a
quarter below a power of two, and at the ends only if the mantissa is even. -/
def Rounds (x : Binary64) (q : Rat) : Prop :=
  if x.mantissa % 2 = 0 then
    ((4 * x.mantissa - x.below : Nat) : Rat) * 2 ^ (x.exponent - 2) ≤ q ∧
      q ≤ ((4 * x.mantissa + 2 : Nat) : Rat) * 2 ^ (x.exponent - 2)
  else
    ((4 * x.mantissa - x.below : Nat) : Rat) * 2 ^ (x.exponent - 2) < q ∧
      q < ((4 * x.mantissa + 2 : Nat) : Rat) * 2 ^ (x.exponent - 2)

section Fractions

variable {n d : Nat} {e : Int}

theorem inUnits_spec (hd : 0 < d) :
    0 < (inUnits n d e).2 ∧
      ((inUnits n d e).1 : Rat) / (inUnits n d e).2 = (n : Rat) / d / 2 ^ e := by
  have hd' : (d : Rat) ≠ 0 := Nat.cast_ne_zero.mpr hd.ne'
  unfold inUnits
  split
  · rename_i he
    have hz : (2 : Rat) ^ e = 2 ^ e.toNat := by rw [← zpow_natCast,Int.toNat_of_nonneg he]
    refine ⟨Nat.mul_pos hd (Nat.pow_pos Nat.two_pos),?_⟩
    rw [hz,div_div]
    norm_cast
  · have hz : (2 : Rat) ^ e = (2 ^ (-e).toNat)⁻¹ := by
      rw [← zpow_natCast,← zpow_neg,Int.toNat_of_nonneg (by omega),neg_neg]
    refine ⟨hd,?_⟩
    rw [hz,div_inv_eq_mul,div_mul_eq_mul_div]
    norm_cast

theorem exists_fraction (c : Nat) (k : Int) : ∃ num den,
    (if 0 ≤ k then (c * Nat.pow 10 k.toNat,1) else (c,Nat.pow 10 (-k).toNat)) = (num,den) ∧
      0 < den ∧ (num : Rat) / den = c * 10 ^ k := by
  split
  · rename_i hk
    refine ⟨_,_,rfl,Nat.one_pos,?_⟩
    have hz : (10 : Rat) ^ k = 10 ^ k.toNat := by rw [← zpow_natCast,Int.toNat_of_nonneg hk]
    rw [hz,Nat.cast_one,div_one]
    norm_cast
  · refine ⟨_,_,rfl,Nat.pow_pos (by decide),?_⟩
    have hz : (10 : Rat) ^ k = (10 ^ (-k).toNat)⁻¹ := by
      rw [← zpow_natCast,← zpow_neg,Int.toNat_of_nonneg (by omega),neg_neg]
    rw [hz,div_eq_mul_inv]
    norm_cast

theorem ratio_spec (x : Binary64) : 0 < x.ratio.2 ∧ (x.ratio.1 : Rat) / x.ratio.2 = x.size := by
  unfold ratio
  split
  · rename_i he
    have hz : (2 : Rat) ^ x.exponent = 2 ^ x.exponent.toNat := by
      rw [← zpow_natCast,Int.toNat_of_nonneg he]
    refine ⟨Nat.one_pos,?_⟩
    rw [size,hz,Nat.cast_one,div_one]
    norm_cast
  · have hz : (2 : Rat) ^ x.exponent = (2 ^ (-x.exponent).toNat)⁻¹ := by
      rw [← zpow_natCast,← zpow_neg,Int.toNat_of_nonneg (by omega),neg_neg]
    refine ⟨Nat.pow_pos Nat.two_pos,?_⟩
    rw [size,hz,div_eq_mul_inv]
    norm_cast

end Fractions

/-- The test on fractions tells whether the decimal rounds to the number. -/
theorem readsBack_iff (x : Binary64) (c : Nat) (k : Int) :
    x.readsBack c k = true ↔ x.Rounds (c * 10 ^ k) := by
  obtain ⟨num,den,hf,hden,hq⟩ := exists_fraction c k
  obtain ⟨hb,hab⟩ := inUnits_spec (n := num) (e := x.exponent - 2) hden
  unfold readsBack
  rw [hf]
  dsimp only
  generalize hu : inUnits num den (x.exponent - 2) = ab at hb hab
  obtain ⟨a,b⟩ := ab
  dsimp only at hb hab ⊢
  have hb' : (0 : Rat) < b := Nat.cast_pos.mpr hb
  have hp := two_zpow_pos (x.exponent - 2)
  have ha : (a : Rat) = c * 10 ^ k / 2 ^ (x.exponent - 2) * b := by
    rw [← hq,← hab,div_mul_cancel₀ _ hb'.ne']
  have hle : ∀ m : Nat, m * b ≤ a ↔ (m : Rat) * 2 ^ (x.exponent - 2) ≤ c * 10 ^ k := by
    intro m
    rw [← @Nat.cast_le Rat,Nat.cast_mul,ha,mul_le_mul_iff_left₀ hb',le_div_iff₀ hp]
  have hge : ∀ m : Nat, a ≤ m * b ↔ (c : Rat) * 10 ^ k ≤ m * 2 ^ (x.exponent - 2) := by
    intro m
    rw [← @Nat.cast_le Rat,Nat.cast_mul,ha,mul_le_mul_iff_left₀ hb',div_le_iff₀ hp]
  have hbelow : (if x.mantissa = Nat.pow 2 52 ∧ minExponent < x.exponent then 1 else 2) = x.below := rfl
  rw [hbelow,Rounds]
  split
  · rw [Bool.and_eq_true,decide_eq_true_iff,decide_eq_true_iff,hle,hge]
  · rw [Bool.and_eq_true,decide_eq_true_iff,decide_eq_true_iff,← not_le,hge,← not_le,hle,not_le,not_le]

/-! ### Intervals that have nothing in common -/

section Unique

variable {x y : Binary64} {q : Rat}

theorem Rounds.le (h : x.Rounds q) :
    ((4 * x.mantissa - x.below : Nat) : Rat) * 2 ^ (x.exponent - 2) ≤ q ∧
      q ≤ ((4 * x.mantissa + 2 : Nat) : Rat) * 2 ^ (x.exponent - 2) := by
  unfold Rounds at h
  split at h
  · exact h
  · exact ⟨h.1.le,h.2.le⟩

/-- An end of the interval belongs to it only if the mantissa is even. -/
theorem Rounds.even_of_end (h : x.Rounds q)
    (he : q = ((4 * x.mantissa + 2 : Nat) : Rat) * 2 ^ (x.exponent - 2) ∨
      q = ((4 * x.mantissa - x.below : Nat) : Rat) * 2 ^ (x.exponent - 2)) : x.mantissa % 2 = 0 := by
  unfold Rounds at h
  split at h
  · assumption
  · rcases he with he | he
    · exact absurd he h.2.ne
    · exact absurd he h.1.ne'

/-- Where the interval of one number ends at or below the start of the other, no rational lies in both,
unless it is the end of both. -/
theorem Rounds.ends_meet (hx : x.Rounds q) (hy : y.Rounds q)
    (h : ((4 * x.mantissa + 2 : Nat) : Rat) * 2 ^ (x.exponent - 2) ≤
      ((4 * y.mantissa - y.below : Nat) : Rat) * 2 ^ (y.exponent - 2)) :
    x.mantissa % 2 = 0 ∧ y.mantissa % 2 = 0 ∧
      ((4 * x.mantissa + 2 : Nat) : Rat) * 2 ^ (x.exponent - 2) =
        ((4 * y.mantissa - y.below : Nat) : Rat) * 2 ^ (y.exponent - 2) := by
  have hxq := hx.le.2
  have hyq := hy.le.1
  have hqx : q = ((4 * x.mantissa + 2 : Nat) : Rat) * 2 ^ (x.exponent - 2) :=
    le_antisymm hxq (h.trans hyq)
  have hqy : q = ((4 * y.mantissa - y.below : Nat) : Rat) * 2 ^ (y.exponent - 2) :=
    le_antisymm (hxq.trans h) hyq
  exact ⟨hx.even_of_end (.inl hqx),hy.even_of_end (.inr hqy),hqx.symm.trans hqy⟩

theorem below_le (x : Binary64) : 1 ≤ x.below ∧ x.below ≤ 2 := by
  unfold below
  split <;> decide

/-- Numbers with one exponent and intervals that meet have one mantissa. -/
theorem Rounds.not_lt_mantissa (hx : x.Rounds q) (hy : y.Rounds q) (he : x.exponent = y.exponent) :
    ¬ x.mantissa < y.mantissa := by
  intro hm
  have hb := y.below_le
  have hp := two_zpow_pos (y.exponent - 2)
  have hle : 4 * x.mantissa + 2 ≤ 4 * y.mantissa - y.below := by omega
  obtain ⟨hex,hey,heq⟩ := hx.ends_meet hy (by
    rw [he]
    exact mul_le_mul_of_nonneg_right (Nat.cast_le.mpr hle) hp.le)
  rw [he] at heq
  have hn : 4 * x.mantissa + 2 = 4 * y.mantissa - y.below :=
    Nat.cast_injective (mul_right_cancel₀ hp.ne' heq)
  omega

/-- A number with a larger exponent lies above the interval of the other. -/
theorem Rounds.not_lt_exponent (hx : x.Rounds q) (hy : y.Rounds q) (hpx : x.Proper) (hpy : y.Proper) :
    ¬ x.exponent < y.exponent := by
  intro he
  have hmin : minExponent < y.exponent := lt_of_le_of_lt hpx.minExponent_le he
  have hn := hpy.normal hmin
  have hm := hpx.mantissa_lt
  have hp := two_zpow_pos (x.exponent - 2)
  -- the unit of the larger number is twice the other one at least
  obtain ⟨j,hj⟩ : ∃ j : Nat, y.exponent = x.exponent + 1 + j := ⟨(y.exponent - x.exponent - 1).toNat,by omega⟩
  have hunit : (2 : Rat) ^ (y.exponent - 2) = ((2 * 2 ^ j : Nat) : Rat) * 2 ^ (x.exponent - 2) := by
    have hexp : y.exponent - 2 = ((1 + j : Nat) : Int) + (x.exponent - 2) := by push_cast; omega
    rw [hexp,zpow_add₀ (by norm_num),zpow_natCast,pow_add,pow_one]
    push_cast
    rfl
  have hj1 : 1 ≤ 2 ^ j := Nat.one_le_two_pow
  have hlow : 2 ^ 54 - 1 ≤ 4 * y.mantissa - y.below ∧
      (4 * y.mantissa - y.below = 2 ^ 54 - 1 ∨ 2 ^ 54 + 2 ≤ 4 * y.mantissa - y.below) := by
    unfold below
    split
    · omega
    · rename_i hne
      have : y.mantissa ≠ 2 ^ 52 := fun h => hne ⟨h,hmin⟩
      omega
  have hle : 4 * x.mantissa + 2 ≤ (4 * y.mantissa - y.below) * (2 * 2 ^ j) := by
    calc 4 * x.mantissa + 2 ≤ (2 ^ 54 - 1) * (2 * 1) := by omega
      _ ≤ (4 * y.mantissa - y.below) * (2 * 2 ^ j) :=
        Nat.mul_le_mul hlow.1 (Nat.mul_le_mul_left 2 hj1)
  obtain ⟨hex,-,heq⟩ := hx.ends_meet hy (by
    rw [hunit,← mul_assoc,← Nat.cast_mul]
    exact mul_le_mul_of_nonneg_right (Nat.cast_le.mpr hle) hp.le)
  rw [hunit,← mul_assoc,← Nat.cast_mul] at heq
  have hnat : 4 * x.mantissa + 2 = (4 * y.mantissa - y.below) * (2 * 2 ^ j) :=
    Nat.cast_injective (mul_right_cancel₀ hp.ne' heq)
  have hge : (2 ^ 54 - 1) * (2 * 1) ≤ (4 * y.mantissa - y.below) * (2 * 2 ^ j) :=
    Nat.mul_le_mul hlow.1 (Nat.mul_le_mul_left 2 hj1)
  -- so the mantissa is the largest there is, which is odd
  omega

/-- No rational rounds to two numbers. -/
theorem Rounds.unique (hx : x.Rounds q) (hy : y.Rounds q) (hpx : x.Proper) (hpy : y.Proper) :
    x.mantissa = y.mantissa ∧ x.exponent = y.exponent := by
  have he : x.exponent = y.exponent :=
    le_antisymm (not_lt.mp (hy.not_lt_exponent hx hpy hpx)) (not_lt.mp (hx.not_lt_exponent hy hpx hpy))
  exact ⟨le_antisymm (not_lt.mp (hy.not_lt_mantissa hx he.symm)) (not_lt.mp (hx.not_lt_mantissa hy he)),he⟩

end Unique

/-! ### Grids that reach into the interval -/

section Grid

variable {x : Binary64} {k : Int} {c : Nat}

theorem size_eq (x : Binary64) : x.size = ((4 * x.mantissa : Nat) : Rat) * 2 ^ (x.exponent - 2) := by
  have he : x.exponent = 2 + (x.exponent - 2) := by omega
  rw [size,he,zpow_add₀ (by norm_num)]
  push_cast
  norm_num
  ring

/-- The ends of the interval of a number lie on either side of it. -/
theorem size_between (hx : 0 < x.mantissa) :
    ((4 * x.mantissa - x.below : Nat) : Rat) * 2 ^ (x.exponent - 2) < x.size ∧
      x.size < ((4 * x.mantissa + 2 : Nat) : Rat) * 2 ^ (x.exponent - 2) := by
  have hb := x.below_le
  have hu := two_zpow_pos (x.exponent - 2)
  rw [size_eq]
  constructor
  · exact mul_lt_mul_of_pos_right (Nat.cast_lt.mpr (by omega)) hu
  · exact mul_lt_mul_of_pos_right (Nat.cast_lt.mpr (by omega)) hu

/-- A rational inside the interval of a number rounds to it. -/
theorem rounds_of_between {q : Rat} (hlo : ((4 * x.mantissa - x.below : Nat) : Rat) * 2 ^ (x.exponent - 2) < q)
    (hhi : q < ((4 * x.mantissa + 2 : Nat) : Rat) * 2 ^ (x.exponent - 2)) : x.Rounds q := by
  unfold Rounds
  split
  · exact ⟨hlo.le,hhi.le⟩
  · exact ⟨hlo,hhi⟩

/-- The neighbours of a number on a grid that is fine enough lie on both sides of it, and one of them
rounds to it. -/
theorem rounds_neighbour (hp : x.Proper) (hx : 0 < x.mantissa)
    (hk : (10 : Rat) ^ k * 10 ^ 16 ≤ x.size) (hlo : (c : Rat) * 10 ^ k ≤ x.size)
    (hhi : x.size < ((c + 1 : Nat) : Rat) * 10 ^ k) :
    x.Rounds (c * 10 ^ k) ∨ x.Rounds ((c + 1 : Nat) * 10 ^ k) := by
  by_contra hno
  obtain ⟨hl,hr⟩ := not_or.mp hno
  obtain ⟨hbelow,habove⟩ := size_between hx
  have hout : (c : Rat) * 10 ^ k ≤ ((4 * x.mantissa - x.below : Nat) : Rat) * 2 ^ (x.exponent - 2) :=
    not_lt.mp fun h => hl (rounds_of_between h (hlo.trans_lt habove))
  have hout' : ((4 * x.mantissa + 2 : Nat) : Rat) * 2 ^ (x.exponent - 2) ≤ ((c + 1 : Nat) : Rat) * 10 ^ k :=
    not_lt.mp fun h => hr (rounds_of_between (hbelow.trans hhi) h)
  -- then a step of the grid spans the whole interval
  have hb := x.below_le
  have hu := two_zpow_pos (x.exponent - 2)
  have hwide : ((2 + x.below : Nat) : Rat) * 2 ^ (x.exponent - 2) ≤ 10 ^ k := by
    have hsplit : 4 * x.mantissa + 2 = (4 * x.mantissa - x.below) + (2 + x.below) := by omega
    rw [hsplit,Nat.cast_add,add_mul] at hout'
    rw [Nat.cast_add c,Nat.cast_one,add_mul,one_mul] at hout'
    linarith
  have hcount : (2 + x.below) * 10 ^ 16 ≤ 4 * x.mantissa := by
    have hle : ((2 + x.below : Nat) : Rat) * 2 ^ (x.exponent - 2) * 10 ^ 16 ≤
        ((4 * x.mantissa : Nat) : Rat) * 2 ^ (x.exponent - 2) := by
      rw [← size_eq]
      exact (mul_le_mul_of_nonneg_right hwide (by norm_num)).trans hk
    rw [mul_right_comm] at hle
    have := le_of_mul_le_mul_right hle hu
    exact_mod_cast this
  have hm := hp.mantissa_lt
  unfold below at hcount
  split at hcount
  · rename_i h
    omega
  · omega

/-- The grid cell of a number. -/
theorem exists_cell (x : Binary64) (k : Int) : ∃ a b,
    (if 0 ≤ k then (x.ratio.1,x.ratio.2 * Nat.pow 10 k.toNat)
      else (x.ratio.1 * Nat.pow 10 (-k).toNat,x.ratio.2)) = (a,b) ∧
      ((a / b : Nat) : Rat) * 10 ^ k ≤ x.size ∧ x.size < ((a / b + 1 : Nat) : Rat) * 10 ^ k := by
  obtain ⟨hd,hr⟩ := x.ratio_spec
  have hcell : ∀ a b : Nat, 0 < b → (a : Rat) / b * 10 ^ k = x.size →
      ((a / b : Nat) : Rat) * 10 ^ k ≤ x.size ∧ x.size < ((a / b + 1 : Nat) : Rat) * 10 ^ k := by
    intro a b hb hab
    have hp := ten_zpow_pos k
    have hb' : (0 : Rat) < b := Nat.cast_pos.mpr hb
    rw [← hab,mul_le_mul_iff_left₀ hp,mul_lt_mul_iff_left₀ hp,le_div_iff₀ hb',div_lt_iff₀ hb']
    constructor
    · exact_mod_cast Nat.div_mul_le_self a b
    · exact_mod_cast Nat.lt_mul_of_div_lt (Nat.lt_succ_self (a / b)) hb
  split
  · rename_i hk
    refine ⟨_,_,rfl,hcell _ _ (Nat.mul_pos hd (Nat.pow_pos (by decide))) ?_⟩
    have hz : (10 : Rat) ^ k = 10 ^ k.toNat := by rw [← zpow_natCast,Int.toNat_of_nonneg hk]
    have hne : ((10 ^ k.toNat : Nat) : Rat) ≠ 0 := by positivity
    rw [← hr,hz,Nat.cast_mul,← div_div]
    exact_mod_cast div_mul_cancel₀ _ hne
  · refine ⟨_,_,rfl,hcell _ _ hd ?_⟩
    have hz : (10 : Rat) ^ k = (10 ^ (-k).toNat)⁻¹ := by
      rw [← zpow_natCast,← zpow_neg,Int.toNat_of_nonneg (by omega),neg_neg]
    have hne : ((10 ^ (-k).toNat : Nat) : Rat) ≠ 0 := by positivity
    rw [← hr,hz,Nat.cast_mul,mul_div_right_comm]
    exact_mod_cast mul_inv_cancel_right₀ hne _

/-- What is found on a grid rounds to the number, and a grid that is fine enough has something. -/
theorem onGrid?_spec (x : Binary64) (k : Int) :
    (∀ c, x.onGrid? k = some c → x.Rounds (c * 10 ^ k)) ∧
      (x.Proper → 0 < x.mantissa → (10 : Rat) ^ k * 10 ^ 16 ≤ x.size → (x.onGrid? k).isSome = true) := by
  obtain ⟨a,b,hab,hlo,hhi⟩ := x.exists_cell k
  unfold onGrid?
  rw [← Prod.eta x.ratio]
  dsimp only
  rw [hab]
  dsimp only
  have hnear := readsBack_iff x (a / b) k
  have hnext := readsBack_iff x (a / b + 1) k
  constructor
  · intro c hc
    split at hc
    · rename_i h₁ h₂
      obtain rfl := Option.some.inj hc
      rcases roundDiv_eq a b with h | h
      · rw [h]
        exact hnear.mp h₁
      · rw [h]
        exact hnext.mp h₂
    · rename_i h₁ h₂
      obtain rfl := Option.some.inj hc
      exact hnear.mp h₁
    · rename_i h₁ h₂
      obtain rfl := Option.some.inj hc
      exact hnext.mp h₂
    · cases hc
  · intro hp hx hk
    rcases rounds_neighbour hp hx hk hlo hhi with h | h
    · rw [hnear.mpr h]
      cases x.readsBack (a / b + 1) k <;> rfl
    · rw [hnext.mpr h]
      cases x.readsBack (a / b) k <;> rfl

/-- The least number above zero is above `10 ^ -399`. -/
theorem exists_one_le_size_mul (hp : x.Proper) (hx : 0 < x.mantissa) :
    ∃ j < 400, 1 ≤ x.size * 10 ^ j := by
  refine ⟨399,by decide,?_⟩
  have hunit : (2 : Rat) ^ (-1074 : Int) ≤ x.size := by
    rw [size,← one_mul ((2 : Rat) ^ (-1074 : Int))]
    refine mul_le_mul (by exact_mod_cast hx) ?_ (two_zpow_pos _).le (by positivity)
    exact zpow_le_zpow_right₀ (by norm_num) hp.minExponent_le
  calc (1 : Rat) ≤ 2 ^ (-1074 : Int) * 10 ^ 399 := by
        rw [show (-1074 : Int) = -((1074 : Nat) : Int) from rfl,zpow_neg,zpow_natCast,
          inv_mul_eq_div,le_div_iff₀ (by positivity),one_mul]
        exact_mod_cast show (2 ^ 1074 : Nat) ≤ 10 ^ 399 by decide +kernel
    _ ≤ x.size * 10 ^ 399 := mul_le_mul_of_nonneg_right hunit (by positivity)

theorem ten_pow_length_le {n : Nat} (hn : 0 < n) : 10 ^ ((decimalDigits n).length - 1) ≤ n := by
  by_contra hlt
  have hpos : 0 < (decimalDigits n).length := Nat.length_toDigits_pos
  rcases Nat.eq_zero_or_pos ((decimalDigits n).length - 1) with hj | hj
  · rw [hj] at hlt
    omega
  · have := (Nat.length_toDigits_le_iff (by decide) hj).mpr (not_le.mp hlt)
    change (decimalDigits n).length ≤ _ at this
    omega

/-- The leading digit of a number does not stand for more than the number. -/
theorem leadingExponent_le (hp : x.Proper) (hx : 0 < x.mantissa) :
    (10 : Rat) ^ leadingExponent x.ratio.1 x.ratio.2 ≤ x.size := by
  obtain ⟨hd,hr⟩ := x.ratio_spec
  obtain ⟨i,hi,hone⟩ := exists_one_le_size_mul hp hx
  generalize x.ratio.1 = n at hr ⊢
  generalize x.ratio.2 = d at hd hr ⊢
  have hd' : (0 : Rat) < d := Nat.cast_pos.mpr hd
  rw [← hr] at hone ⊢
  unfold leadingExponent
  split
  · rename_i hle
    have hlen : ((decimalDigits (n / d)).length : Int) - 1 = (((decimalDigits (n / d)).length - 1 : Nat) : Int) := by
      have : 0 < (decimalDigits (n / d)).length := Nat.length_toDigits_pos
      omega
    rw [hlen,zpow_natCast,le_div_iff₀ hd']
    have hmul := (Nat.le_div_iff_mul_le hd).mp (ten_pow_length_le (Nat.div_pos hle hd))
    exact_mod_cast hmul
  · have hsome : ((List.range 400).find? fun j => d ≤ n * Nat.pow 10 j).isSome = true := by
      rw [List.find?_isSome]
      refine ⟨i,List.mem_range.mpr hi,decide_eq_true ?_⟩
      rw [div_mul_eq_mul_div,le_div_iff₀ hd',one_mul] at hone
      exact_mod_cast hone
    obtain ⟨j,hj⟩ := Option.isSome_iff_exists.mp hsome
    have hfound : d ≤ n * Nat.pow 10 j := by simpa using List.find?_some hj
    rw [hj,Option.getD_some,zpow_neg,zpow_natCast,inv_le_iff_one_le_mul₀ (by positivity),
      div_mul_eq_mul_div,le_div_iff₀ hd',one_mul]
    exact_mod_cast hfound

theorem rounds_zero (hx : x.mantissa = 0) : x.Rounds 0 := by
  unfold Rounds
  rw [if_pos (by rw [hx])]
  refine ⟨?_,mul_nonneg (Nat.cast_nonneg _) (two_zpow_pos _).le⟩
  rw [hx,Nat.mul_zero,Nat.zero_sub,Nat.cast_zero,zero_mul]

/-- The shortest decimal of a number rounds to the number. -/
theorem rounds_shortest (hp : x.Proper) : x.Rounds x.shortest.value := by
  unfold shortest
  split
  · rename_i hz
    rw [Decimal.value,Nat.cast_zero,zero_mul]
    exact rounds_zero (of_decide_eq_true hz)
  · rename_i hz
    have hx : 0 < x.mantissa := Nat.pos_of_ne_zero fun h => hz (decide_eq_true h)
    dsimp only
    -- seventeen digits are always enough
    have hsome : ((List.range 17).findSome? fun i : Nat =>
        (x.onGrid? (leadingExponent x.ratio.1 x.ratio.2 - i)).map
          fun c => (c,leadingExponent x.ratio.1 x.ratio.2 - i)).isSome = true := by
      rw [List.findSome?_isSome_iff]
      refine ⟨16,by simp,?_⟩
      rw [Option.isSome_map]
      refine (onGrid?_spec x _).2 hp hx ?_
      have hten : (10 : Rat) ^ (16 : Nat) = 10 ^ ((16 : Nat) : Int) := (zpow_natCast _ _).symm
      rw [hten,← zpow_add₀ (by norm_num),sub_add_cancel]
      exact leadingExponent_le hp hx
    obtain ⟨⟨c,k⟩,hit⟩ := Option.isSome_iff_exists.mp hsome
    rw [hit]
    dsimp only
    rw [Decimal.value_trimZeros]
    obtain ⟨i,-,hi⟩ := List.exists_of_findSome?_eq_some hit
    obtain ⟨c',hc,hck⟩ := Option.map_eq_some_iff.mp hi
    obtain ⟨rfl,rfl⟩ := Prod.mk.inj hck
    exact (onGrid?_spec x _).1 _ hc

end Grid

/-! ### The text of a number -/

/-- A text behind an optional sign, where the text starts with a digit. -/
theorem sign_append_inj {a b : Bool} {c d : Char} {cs ds : List Char} (hc : c.isDigit = true)
    (hd : d.isDigit = true)
    (h : (if a then ['-'] else []) ++ c :: cs = (if b then ['-'] else []) ++ d :: ds) :
    a = b ∧ c = d ∧ cs = ds := by
  cases a <;> cases b <;>
    simp only [Bool.false_eq_true,if_false,if_true,List.nil_append,List.cons_append,List.cons.injEq] at h
  · exact ⟨rfl,h⟩
  · rw [h.1] at hc
    exact absurd hc (by decide)
  · rw [← h.1] at hd
    exact absurd hd (by decide)
  · exact ⟨rfl,h.2⟩

theorem jsonText_inj {x y : Binary64} (hx : x.Proper) (hy : y.Proper) (h : x.jsonText = y.jsonText) :
    x = y := by
  obtain ⟨c,cs,hwx,hc,-,-⟩ := x.shortest.exists_write ⟨-5,16⟩
  obtain ⟨d,ds,hwy,hd,-,-⟩ := y.shortest.exists_write ⟨-5,16⟩
  rw [jsonText,jsonText,signText,signText,hwx,hwy] at h
  obtain ⟨hsign,hcd,hcds⟩ := sign_append_inj hc hd h
  -- the text after the sign gives back the decimal, which rounds to both numbers
  have hvalue : x.shortest.value = y.shortest.value := by
    rw [← x.shortest.textValue_write ⟨-5,16⟩,← y.shortest.textValue_write ⟨-5,16⟩,hwx,hwy,hcd,hcds]
  have hround : y.Rounds x.shortest.value := hvalue ▸ rounds_shortest hy
  obtain ⟨hm,he⟩ := (rounds_shortest hx).unique hround hx hy
  cases x
  cases y
  simp only at hsign hm he
  rw [hsign,hm,he]

end Binary64

namespace Number

/-- An integer, or a binary64 with the bits one can have. -/
def Proper : Number → Prop
  | integer _ => True
  | binary x => x.Proper

def isInteger : Number → Bool
  | integer _ => true
  | binary _ => false

def isBelow : Number → Bool
  | integer n => n < 0
  | binary x => x.negative

/-- The text of a number is a digit and characters of numbers behind a sign, and only an integer has
digits alone. -/
theorem exists_text (n : Number) : ∃ c cs,
    n.text = (if n.isBelow then ['-'] else []) ++ c :: cs ∧ c.isDigit = true ∧
      (∀ x ∈ cs, isNumberChar x = true) ∧ cs.all Char.isDigit = n.isInteger := by
  cases n with
  | integer n =>
    obtain ⟨c,cs,hds⟩ := List.exists_cons_of_ne_nil (decimalDigits_ne_nil n.natAbs)
    have hall : ∀ x ∈ c :: cs, x.isDigit = true := by
      rw [← hds]
      exact fun x hx => isDigit_of_mem_decimalDigits hx
    refine ⟨c,cs,?_,hall c List.mem_cons_self,
      fun x hx => isNumberChar_of_isDigit (hall x (List.mem_cons_of_mem _ hx)),
      List.all_eq_true.mpr fun x hx => hall x (List.mem_cons_of_mem _ hx)⟩
    rw [text,hds]
    by_cases hn : n < 0 <;> simp [isBelow,hn]
  | binary x =>
    obtain ⟨c,cs,hw,hc,hcs,hother⟩ := x.shortest.exists_write ⟨-5,16⟩
    refine ⟨c,cs,?_,hc,hcs,?_⟩
    · rw [text,Binary64.jsonText,hw]
      rfl
    · obtain ⟨y,hy,hyd⟩ := hother
      exact List.all_eq_false.mpr ⟨y,hy,by rw [hyd]; decide⟩

theorem text_ne_nil (n : Number) : n.text ≠ [] := by
  obtain ⟨c,cs,h,-⟩ := n.exists_text
  rw [h]
  exact List.append_ne_nil_of_right_ne_nil _ (List.cons_ne_nil _ _)

theorem isNumberChar_of_mem_text {n : Number} {c : Char} (h : c ∈ n.text) : isNumberChar c = true := by
  obtain ⟨d,cs,ht,hd,hcs,-⟩ := n.exists_text
  rw [ht] at h
  rcases List.mem_append.mp h with h | h
  · split at h
    · rw [List.mem_singleton.mp h]
      rfl
    · cases h
  · rcases List.mem_cons.mp h with rfl | h
    · exact isNumberChar_of_isDigit hd
    · exact hcs c h

/-- Distinct numbers have distinct texts. -/
theorem text_inj {m n : Number} (hm : m.Proper) (hn : n.Proper) (h : m.text = n.text) : m = n := by
  obtain ⟨c,cs,htm,hc,-,hcs⟩ := m.exists_text
  obtain ⟨d,ds,htn,hd,-,hds⟩ := n.exists_text
  have heq := h
  rw [htm,htn] at heq
  obtain ⟨hsign,hcd,hcds⟩ := Binary64.sign_append_inj hc hd heq
  have hkind : m.isInteger = n.isInteger := by rw [← hcs,hcds,hds]
  match m, n with
  | .integer m, .integer n =>
    have habs : decimalDigits m.natAbs = decimalDigits n.natAbs := by
      have hbelow : (decide (m < 0)) = decide (n < 0) := hsign
      have hiff : m < 0 ↔ n < 0 := decide_eq_decide.mp hbelow
      simp only [text,hiff] at h
      split at h
      · exact (List.cons.inj h).2
      · exact h
    have hiff : m < 0 ↔ n < 0 := decide_eq_decide.mp hsign
    have := decimalDigits_inj.mp habs
    exact congrArg integer (by omega)
  | .binary x, .binary y => exact congrArg binary (Binary64.jsonText_inj hm hn h)
  | .integer _, .binary _ => cases hkind
  | .binary _, .integer _ => cases hkind

end Number
end CoverageCounters

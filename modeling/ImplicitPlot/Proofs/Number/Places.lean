import ImplicitPlot.Proofs.Number.Order
import ImplicitPlot.Number.Places

/-
  Values rounded to a number of decimal digits. A quotient is rounded as `halfEven` does it
  (`roundQuotient_eq`), and the decade of a quotient is the exponent of the power of ten at or
  below it (`decade_spec`). So a value with `places` digits behind the point is off by half of
  `10 ^ -places` at most (`Exact.abs_fixed_sub_le`), and with `places` digits behind the leading
  one by half of its last digit (`Exact.abs_significand_sub_le`). Values that are rounded to the
  same digits are close to each other (`Exact.abs_sub_le_of_significand_eq`).
-/
namespace ImplicitPlot.Number

theorem tenTo_eq (n : ℕ) : tenTo n = 10 ^ n := rfl

/-- The number that a decimal stands for. -/
def Decimal.value (d : Decimal) : ℚ := d.coefficient * 10 ^ d.exponent

/-! ## Quotients -/

theorem roundQuotient_eq (num : ℕ) {den : ℕ} (hden : 0 < den) :
    (roundQuotient num den : ℤ) = halfEven (num / den) := by
  have hden' : (0 : ℚ) < den := by exact_mod_cast hden
  have hsplit : (num / den : ℚ) = ((num / den : ℕ) : ℤ) + ((num % den : ℕ) : ℚ) / den := by
    have hnum : (num : ℚ) = den * (num / den : ℕ) + (num % den : ℕ) := by
      exact_mod_cast (Nat.div_add_mod num den).symm
    rw [Int.cast_natCast]
    field_simp
    linarith
  have hlt : ((num % den : ℕ) : ℚ) / den < 1 := by
    rw [div_lt_one hden']
    exact_mod_cast Nat.mod_lt num hden
  have hlow : ((num % den : ℕ) : ℚ) / den < 1 / 2 ↔ 2 * (num % den) < den := by
    rw [div_lt_div_iff₀ hden' (by norm_num), one_mul, mul_comm]
    exact_mod_cast Iff.rfl
  have hhalf : ((num % den : ℕ) : ℚ) / den = 1 / 2 ↔ 2 * (num % den) = den := by
    rw [div_eq_div_iff hden'.ne' (by norm_num), one_mul, mul_comm]
    exact_mod_cast Iff.rfl
  have hparity : Even ((num / den : ℕ) : ℤ) ↔ num / den % 2 = 0 := by
    rw [Int.even_coe_nat, Nat.even_iff]
  rw [hsplit, halfEven_add (by positivity) hlt, roundQuotient]
  simp only [hlow, hhalf, hparity]
  split_ifs <;> omega

theorem abs_roundQuotient_sub_le (num : ℕ) {den : ℕ} (hden : 0 < den) :
    |(roundQuotient num den : ℚ) - num / den| ≤ 1 / 2 := by
  have herror := abs_halfEven_sub_le (num / den)
  rwa [← roundQuotient_eq num hden, Int.cast_natCast] at herror

/-! ## The leading digit -/

theorem digits_length_bounds {n : ℕ} (hn : 0 < n) :
    10 ^ ((digits n).length - 1) ≤ n ∧ n < 10 ^ (digits n).length := by
  have hlength := digits_length_pos n
  refine ⟨?_, (Nat.length_toDigits_le_iff (by norm_num) hlength).mp le_rfl⟩
  by_contra hlt
  rcases Nat.eq_zero_or_pos ((digits n).length - 1) with hone | hmore
  · rw [hone, pow_zero] at hlt
    exact hlt hn
  · have hshort := (Nat.length_toDigits_le_iff (by norm_num) hmore).mpr (not_le.mp hlt)
    exact absurd hshort (by rw [← digits]; omega)

theorem digits_length_eq {n k : ℕ} (hlow : 10 ^ k ≤ n) (hhigh : n < 10 ^ (k + 1)) :
    (digits n).length = k + 1 := by
  have hpos : 0 < n := (Nat.pow_pos (by norm_num)).trans_le hlow
  obtain ⟨hleading, hall⟩ := digits_length_bounds hpos
  have hmost : (digits n).length - 1 < k + 1 :=
    (Nat.pow_lt_pow_iff_right (by norm_num)).mp (hleading.trans_lt hhigh)
  have hleast : k < (digits n).length :=
    (Nat.pow_lt_pow_iff_right (by norm_num)).mp (hlow.trans_lt hall)
  omega

/-- The decade of a quotient is the exponent of the power of ten at or below it. -/
theorem decade_spec {num den : ℕ} (hnum : 0 < num) (hden : 0 < den) :
    (10 : ℚ) ^ decade num den ≤ num / den ∧ (num / den : ℚ) < 10 ^ (decade num den + 1) := by
  have hnum' : (0 : ℚ) < num := by exact_mod_cast hnum
  have hden' : (0 : ℚ) < den := by exact_mod_cast hden
  rw [decade]
  split
  · rename_i hone
    obtain ⟨hlow, hhigh⟩ := digits_length_bounds (Nat.div_pos hone hden)
    have hlength := digits_length_pos (num / den)
    have hlow' : 10 ^ ((digits (num / den)).length - 1) * den ≤ num :=
      (Nat.mul_le_mul_right den hlow).trans (Nat.div_mul_le_self num den)
    have hhigh' : num < 10 ^ (digits (num / den)).length * den :=
      (Nat.div_lt_iff_lt_mul hden).mp hhigh
    have hplace : ((digits (num / den)).length : ℤ) - 1 =
        ((digits (num / den)).length - 1 : ℕ) := by
      omega
    constructor
    · rw [hplace, zpow_natCast, le_div_iff₀ hden']
      exact_mod_cast hlow'
    · rw [sub_add_cancel, zpow_natCast, div_lt_iff₀ hden']
      exact_mod_cast hhigh'
  · rename_i hsmall
    obtain ⟨hlow, hhigh⟩ := digits_length_bounds (Nat.div_pos (by omega : num ≤ den - 1) hnum)
    have hlength := digits_length_pos ((den - 1) / num)
    have hlow' : 10 ^ ((digits ((den - 1) / num)).length - 1) * num < den := by
      have := (Nat.mul_le_mul_right num hlow).trans (Nat.div_mul_le_self (den - 1) num)
      omega
    have hhigh' : den ≤ 10 ^ (digits ((den - 1) / num)).length * num := by
      have := (Nat.div_lt_iff_lt_mul hnum).mp hhigh
      omega
    have hplace : -((digits ((den - 1) / num)).length : ℤ) + 1 =
        -((digits ((den - 1) / num)).length - 1 : ℕ) := by
      omega
    constructor
    · rw [zpow_neg, zpow_natCast, inv_eq_one_div, div_le_div_iff₀ (by positivity) hden', one_mul,
        mul_comm]
      exact_mod_cast hhigh'
    · rw [hplace, zpow_neg, zpow_natCast, inv_eq_one_div, div_lt_div_iff₀ hden' (by positivity),
        one_mul, mul_comm]
      exact_mod_cast hlow'

/-! ## Values of doubles -/

namespace Exact

/-- The value without its sign. -/
def magnitude (v : Exact) : ℚ := v.num / v.den

theorem abs_value (v : Exact) : |v.value| = v.magnitude := by
  rw [value, abs_div, Nat.abs_cast, signedNum, magnitude]
  split <;> simp

theorem value_eq_magnitude (v : Exact) :
    v.value = if v.negative then -v.magnitude else v.magnitude := by
  rw [value, signedNum, magnitude]
  split <;> simp [neg_div]

/-- Values of the same sign are as far apart as their magnitudes. -/
theorem abs_value_sub {u v : Exact} (h : u.negative = v.negative) :
    |u.value - v.value| = |u.magnitude - v.magnitude| := by
  rw [value_eq_magnitude, value_eq_magnitude, h]
  split
  · rw [← abs_neg]
    congr 1
    ring
  · rfl

theorem mantissa_pos_of_value_ne {v : Exact} (h : v.value ≠ 0) : 0 < v.mantissa := by
  by_contra hzero
  refine h ?_
  rw [value_eq, Nat.eq_zero_of_not_pos hzero]
  simp

/-- A value with `places` digits behind the point. -/
theorem abs_fixed_sub_le (v : Exact) (places : ℕ) :
    |(roundQuotient (v.num * tenTo places) v.den : ℚ) / 10 ^ places - v.magnitude| ≤
      1 / 2 / 10 ^ places := by
  have hpow : (0 : ℚ) < 10 ^ places := by positivity
  have herror := abs_roundQuotient_sub_le (v.num * tenTo places) v.den_pos
  have hscaled : (roundQuotient (v.num * tenTo places) v.den : ℚ) / 10 ^ places - v.magnitude =
      (roundQuotient (v.num * tenTo places) v.den -
        ((v.num * tenTo places : ℕ) : ℚ) / v.den) / 10 ^ places := by
    rw [magnitude, tenTo_eq]
    push_cast
    field_simp
  rw [hscaled, abs_div, abs_of_pos hpow]
  exact div_le_div_of_nonneg_right herror hpow.le

theorem num_pos {v : Exact} (hv : 0 < v.mantissa) : 0 < v.num := Nat.mul_pos hv (twoTo_pos _)

theorem decade_bounds {v : Exact} (hv : 0 < v.mantissa) :
    (10 : ℚ) ^ v.decade ≤ v.magnitude ∧ v.magnitude < 10 ^ (v.decade + 1) :=
  decade_spec (num_pos hv) v.den_pos

/-- A value in units of a decimal place, rounded. -/
def coefficient (v : Exact) (place : ℤ) : ℕ :=
  roundQuotient (v.num * tenTo (-place).toNat) (v.den * tenTo place.toNat)

theorem coefficient_eq (v : Exact) (place : ℤ) :
    (v.coefficient place : ℤ) = halfEven (v.magnitude / 10 ^ place) := by
  have hten : (10 : ℚ) ^ place = 10 ^ place.toNat / 10 ^ (-place).toNat := by
    rw [← zpow_natCast, ← zpow_natCast, ← zpow_sub₀ (by norm_num)]
    congr 1
    omega
  have hscaled : ((v.num * tenTo (-place).toNat : ℕ) : ℚ) / (v.den * tenTo place.toNat : ℕ) =
      v.magnitude / 10 ^ place := by
    rw [magnitude, hten, tenTo_eq, tenTo_eq]
    push_cast
    field_simp
  rw [coefficient, roundQuotient_eq _ (Nat.mul_pos v.den_pos (tenTo_pos _)), hscaled]

theorem abs_coefficient_mul_sub_le (v : Exact) (place : ℤ) :
    |v.coefficient place * 10 ^ place - v.magnitude| ≤ 1 / 2 * 10 ^ place := by
  have hunit : (0 : ℚ) < 10 ^ place := zpow_pos (by norm_num) _
  have herror := abs_halfEven_sub_le (v.magnitude / 10 ^ place)
  rw [← coefficient_eq, Int.cast_natCast] at herror
  have hscaled : v.coefficient place * 10 ^ place - v.magnitude =
      (v.coefficient place - v.magnitude / 10 ^ place) * 10 ^ place := by
    field_simp
  rw [hscaled, abs_mul, abs_of_pos hunit]
  exact mul_le_mul_of_nonneg_right herror hunit.le

/-- The place of the last of `places` digits behind the leading one. -/
def lastPlace (v : Exact) (places : ℕ) : ℤ := v.decade - places

theorem lastPlace_add (v : Exact) (places n : ℕ) :
    (10 : ℚ) ^ (v.decade + n) = ((10 ^ (places + n) : ℕ) : ℤ) * 10 ^ v.lastPlace places := by
  rw [lastPlace]
  push_cast
  rw [← zpow_natCast, ← zpow_add₀ (by norm_num)]
  congr 1
  push_cast
  ring

/-- Rounding to `places` digits behind the leading one keeps that digit, or gives the next power
of ten. -/
theorem coefficient_bounds {v : Exact} (hv : 0 < v.mantissa) (places : ℕ) :
    10 ^ places ≤ v.coefficient (v.lastPlace places) ∧
      v.coefficient (v.lastPlace places) ≤ 10 ^ (places + 1) := by
  obtain ⟨hlow, hhigh⟩ := decade_bounds hv
  have hunit : (0 : ℚ) < 10 ^ v.lastPlace places := zpow_pos (by norm_num) _
  constructor
  · have hle : (((10 ^ places : ℕ) : ℤ) : ℚ) ≤ v.magnitude / 10 ^ v.lastPlace places := by
      have hplace := v.lastPlace_add places 0
      rw [Nat.cast_zero, add_zero, add_zero] at hplace
      rw [le_div_iff₀ hunit, ← hplace]
      exact hlow
    have hmono := halfEven_mono hle
    rw [halfEven_intCast, ← coefficient_eq] at hmono
    exact_mod_cast hmono
  · have hle : v.magnitude / 10 ^ v.lastPlace places ≤ (((10 ^ (places + 1) : ℕ) : ℤ) : ℚ) := by
      rw [div_le_iff₀ hunit, ← lastPlace_add]
      exact hhigh.le
    have hmono := halfEven_mono hle
    rw [halfEven_intCast, ← coefficient_eq] at hmono
    exact_mod_cast hmono

/-- The value of a rounded number does not depend on whether rounding carried to a new digit. -/
theorem significand_value {v : Exact} (hv : 0 < v.mantissa) (places : ℕ) :
    (v.significand places).value =
      v.coefficient (v.lastPlace places) * 10 ^ v.lastPlace places := by
  have hbounds := coefficient_bounds hv places
  have hsignificand : v.significand places =
      if v.coefficient (v.lastPlace places) < tenTo (places + 1)
      then ⟨v.coefficient (v.lastPlace places), v.lastPlace places⟩
      else ⟨tenTo places, v.lastPlace places + 1⟩ := rfl
  rw [hsignificand, tenTo_eq, tenTo_eq]
  split
  · rfl
  · rename_i hcarry
    have hc : v.coefficient (v.lastPlace places) = 10 ^ (places + 1) := by omega
    rw [hc, Decimal.value, zpow_add₀ (by norm_num)]
    push_cast
    ring

/-- A value with `places` digits behind the leading one has a leading digit that is not zero. -/
theorem significand_bounds {v : Exact} (hv : 0 < v.mantissa) (places : ℕ) :
    10 ^ places ≤ (v.significand places).coefficient ∧
      (v.significand places).coefficient < 10 ^ (places + 1) := by
  have hbounds := coefficient_bounds hv places
  have hsignificand : (v.significand places).coefficient =
      if v.coefficient (v.lastPlace places) < 10 ^ (places + 1)
      then v.coefficient (v.lastPlace places) else 10 ^ places := by
    exact apply_ite Decimal.coefficient _ _ _
  have hcarry : 10 ^ places < 10 ^ (places + 1) := Nat.pow_lt_pow_right (by norm_num) (by omega)
  rw [hsignificand]
  split <;> omega

/-- It is off by half of its last digit at most, and stays in the decade. -/
theorem abs_significand_sub_le {v : Exact} (hv : 0 < v.mantissa) (places : ℕ) :
    |(v.significand places).value - v.magnitude| ≤ 1 / 2 * 10 ^ v.lastPlace places := by
  rw [significand_value hv]
  exact v.abs_coefficient_mul_sub_le _

theorem zpow_decade_le_significand {v : Exact} (hv : 0 < v.mantissa) (places : ℕ) :
    (10 : ℚ) ^ v.decade ≤ (v.significand places).value := by
  have hunit : (0 : ℚ) < 10 ^ v.lastPlace places := zpow_pos (by norm_num) _
  have hplace := v.lastPlace_add places 0
  have hlow : ((10 ^ places : ℕ) : ℚ) ≤ v.coefficient (v.lastPlace places) := by
    exact_mod_cast (coefficient_bounds hv places).1
  rw [Nat.cast_zero, add_zero, add_zero, Int.cast_natCast] at hplace
  rw [significand_value hv, hplace]
  exact mul_le_mul_of_nonneg_right hlow hunit.le

/-! ## Values with the same digits -/

variable {u v : Exact} {places : ℕ}

/-- A unit of the last digit is a part of the value. -/
theorem zpow_lastPlace_le (hu : 0 < u.mantissa) (places : ℕ) :
    (10 : ℚ) ^ u.lastPlace places ≤ u.magnitude * 10 ^ (-(places : ℤ)) := by
  have hdecade := (decade_bounds hu).1
  rw [lastPlace, sub_eq_add_neg, zpow_add₀ (by norm_num)]
  exact mul_le_mul_of_nonneg_right hdecade (zpow_nonneg (by norm_num) _)

/-- Values that are rounded to the same digits are as close as their last digits. -/
theorem abs_sub_le_of_significand_eq (hu : 0 < u.mantissa) (hv : 0 < v.mantissa)
    (h : u.significand places = v.significand places) :
    |u.magnitude - v.magnitude| ≤
      1 / 2 * 10 ^ u.lastPlace places + 1 / 2 * 10 ^ v.lastPlace places := by
  have huerror := abs_significand_sub_le hu places
  have hverror := abs_significand_sub_le hv places
  rw [h, abs_sub_comm] at huerror
  exact (abs_sub_le _ _ _).trans (add_le_add huerror hverror)

/-- Values that are rounded to the same digits have almost the same decade. -/
theorem zpow_decade_le_of_significand_eq (hu : 0 < u.mantissa) (hv : 0 < v.mantissa)
    (h : u.significand places = v.significand places) :
    (10 : ℚ) ^ v.decade ≤ u.magnitude + 1 / 2 * 10 ^ u.lastPlace places := by
  have hdecade := zpow_decade_le_significand hv places
  have herror := abs_le.mp (abs_significand_sub_le hu places)
  rw [h] at herror
  linarith

/-- A value below a power of ten has a unit of the last digit well below it. -/
theorem zpow_lastPlace_le_of_lt {k : ℤ} (h : (10 : ℚ) ^ u.decade < 10 ^ (k + 1))
    (hplaces : 1 ≤ places) : (10 : ℚ) ^ u.lastPlace places ≤ 10 ^ k / 10 := by
  have hdecade : u.decade < k + 1 := (zpow_lt_zpow_iff_right₀ (by norm_num)).mp h
  have htenth : (10 : ℚ) ^ k / 10 = 10 ^ (k - 1) := by
    rw [zpow_sub₀ (by norm_num), zpow_one]
  rw [htenth, lastPlace]
  exact zpow_le_zpow_right₀ (by norm_num) (by omega)

/-- Values below a power of ten that are rounded to the same digits are close. -/
theorem abs_sub_le_of_near (hu : 0 < u.mantissa) (hv : 0 < v.mantissa)
    (h : u.significand places = v.significand places) (hplaces : 1 ≤ places) {k : ℤ}
    (hnear : u.magnitude ≤ 99 / 10 * 10 ^ k) : |u.magnitude - v.magnitude| ≤ 10 ^ k / 10 := by
  have hpos : (0 : ℚ) < 10 ^ k := zpow_pos (by norm_num) k
  have hnext : (10 : ℚ) ^ (k + 1) = 10 * 10 ^ k := by
    rw [zpow_add₀ (by norm_num), zpow_one, mul_comm]
  have hudecade := (decade_bounds hu).1
  have huplace := zpow_lastPlace_le_of_lt (u := u) (k := k) (by linarith) hplaces
  have hvdecade := zpow_decade_le_of_significand_eq hu hv h
  have hvplace := zpow_lastPlace_le_of_lt (u := v) (k := k) (by linarith) hplaces
  linarith [abs_sub_le_of_significand_eq hu hv h]

end Exact

end ImplicitPlot.Number

import ImplicitPlot.Proofs.Number.Order
import ImplicitPlot.Number.Decimal

/-
  Doubles from decimals and from whole numbers. A decimal is read as the double nearest to it
  (`ofScientific_rounds`); so are a whole number (`ofInt_rounds`) and a power of ten.
-/
namespace ImplicitPlot.Number

open Float.Model (Format UnpackedFloat)
open Float.Model.UnpackedFloat

/-- A number of at least one has no bit below the last one of a mantissa that begins at one. -/
theorem le_quantumExponent_of_one_le {v : ℚ} (h : 1 ≤ v) : -52 ≤ quantumExponent v := by
  have hpos : 0 < v := by linarith
  have hlog : 0 ≤ Int.log 2 v :=
    (Int.zpow_le_iff_le_log (by norm_num) hpos).mp (by simpa using h)
  rw [quantumExponent, abs_of_pos hpos]
  omega

/-- A decimal is read as the nearest double, if its exponent is not huge. -/
theorem ofScientific_rounds {m : ℕ} (hm : 0 < m) {e : ℤ} (hlow : -2048 ≤ e) (hhigh : e ≤ 2048)
    {x : Float} (hx : x.toModel = Float.Model.ofScientific m e) : Rounds (m * 10 ^ e) x := by
  have hv : (0 : ℚ) < m * 10 ^ e := mul_pos (by exact_mod_cast hm) (zpow_pos (by norm_num) e)
  have hlowest : ¬e < -(2 ^ Format.binary64.exponentBits + (m.log2 : ℤ)) := by
    have hbits : (2 : ℤ) ^ Format.binary64.exponentBits = 2048 := rfl
    omega
  have hmodel : x.toModel = .pack (UnpackedFloat.ofScientific .binary64 m e) := hx
  rw [UnpackedFloat.ofScientific, dif_neg hm.ne', if_neg (not_lt.mpr (by exact hhigh)),
    if_neg hlowest] at hmodel
  rw [← one_mul ((m : ℚ) * 10 ^ e), ← factor_positive]
  by_cases hsign : 0 ≤ e
  · have hpower : (10 : ℚ) ^ e = 10 ^ e.toNat := by
      rw [← zpow_natCast, Int.toNat_of_nonneg hsign]
    have hone : 1 ≤ (m : ℚ) * 10 ^ e := by
      rw [hpower]
      exact_mod_cast Nat.mul_pos hm (Nat.pow_pos (by norm_num))
    -- the mantissa is written with 53 zeros behind it, so that it has enough bits
    have hstands : ((m <<< 53 * 10 ^ e.toNat : ℕ) : ℚ) = m * 10 ^ e / 2 ^ (-53 + 0 : ℤ) := by
      rw [hpower, Nat.shiftLeft_eq]
      push_cast
      norm_num
      ring
    rw [if_pos hsign] at hmodel
    refine RoundedTo.rounds ?_ hv hmodel
    refine roundWithAccuracy_spec _ hv (hstands ▸ Stands.exact _) ?_
    have := le_quantumExponent_of_one_le hone
    show (-53 + 0 : ℤ) ≤ _
    omega
  · have hpower : (10 : ℚ) ^ e = 1 / 10 ^ (-e).toNat := by
      rw [← zpow_natCast, Int.toNat_of_nonneg (by omega), zpow_neg, one_div, inv_inv]
    have hvalue : (m : ℚ) * 2 ^ (0 : ℤ) / ((10 ^ (-e).toNat : ℕ) * 2 ^ (0 : ℤ)) = m * 10 ^ e := by
      rw [hpower]
      push_cast
      simp [div_eq_mul_inv]
    obtain ⟨hstands, hplace⟩ := divCore_spec hm (Nat.pow_pos (by norm_num : 0 < 10)) 0 0
    rw [hvalue] at hstands hplace
    rw [if_neg hsign] at hmodel
    exact RoundedTo.rounds (roundWithAccuracy_spec _ hv hstands hplace) hv hmodel

/-! ## Whole numbers -/

theorem ofNat_rounds {n : ℕ} : Rounds n (Float.ofNat n) := by
  by_cases hsmall : n < 2 ^ 53
  · refine Or.inl ⟨abs_nearest_natCast_lt hsmall, ?_⟩
    rw [nearest_natCast hsmall]
    exact value?_ofNat hsmall
  · have hmodel : (Float.ofNat n).toModel = Float.Model.ofScientific n 0 := by
      have hslow : Float.ofNat n = .ofModel (.ofScientific n 0) := dif_neg (by omega)
      rw [hslow]
    have hrounds := ofScientific_rounds (by omega) (by norm_num) (by norm_num) hmodel
    rwa [zpow_zero, mul_one] at hrounds

theorem Rounds.neg {v : ℚ} {x : Float} (hv : v ≠ 0) (h : Rounds v x) : Rounds (-v) (-x) := by
  have hsign : signOf (-v) = -signOf v := by
    rcases lt_or_gt_of_ne hv with hneg | hpos
    · rw [signOf, signOf, if_pos hneg, if_neg (by linarith)]
      rfl
    · rw [signOf, signOf, if_pos (by linarith), if_neg (by linarith)]
      rfl
  rw [Rounds, nearest_neg, abs_neg, hsign]
  obtain ⟨hsmall, hvalue⟩ | ⟨hlarge, hinfinite⟩ := h
  · exact Or.inl ⟨hsmall, value?_neg hvalue⟩
  · refine Or.inr ⟨hlarge, ?_⟩
    rw [unpack_neg, hinfinite]
    rfl

theorem ofInt_rounds (n : ℤ) : Rounds n (Float.ofInt n) := by
  cases n with
  | ofNat n => exact ofNat_rounds
  | negSucc n =>
    have hne : ((n + 1 : ℕ) : ℚ) ≠ 0 := by exact_mod_cast Nat.succ_ne_zero n
    have hneg := (ofNat_rounds (n := n + 1)).neg hne
    rwa [Int.cast_negSucc]

/-- Words of 64 bits are finite doubles. -/
theorem value?_ofInt {n : ℤ} (hn : |n| ≤ 2 ^ 63) : value? (Float.ofInt n) = some (nearest n) := by
  have hn' : |(n : ℚ)| ≤ 2 ^ 63 := by exact_mod_cast hn
  have hlarge : (2 : ℚ) ^ 63 ≤ 2 ^ 1023 := pow_le_pow_right₀ (by norm_num) (by norm_num)
  exact (ofInt_rounds n).value?_eq (abs_nearest_lt_tooLarge_of_le (hn'.trans hlarge))

/-- A whole number is rounded to a whole number. -/
theorem exists_nearest_eq_intCast (n : ℤ) : ∃ k : ℤ, nearest n = k := by
  by_cases hsmall : quantumExponent n ≤ 0
  · -- a unit of one or less divides every whole number
    obtain ⟨k, hk⟩ := exists_zpow_eq_mul_quantum hsmall
    refine ⟨n, nearest_of_multiple (k := n * k) ?_⟩
    rw [zpow_zero] at hk
    push_cast
    rw [mul_assoc, ← hk, mul_one]
  · refine ⟨halfEven (n / quantum n) * 2 ^ (quantumExponent n).toNat, ?_⟩
    rw [nearest, quantum]
    push_cast
    rw [← zpow_natCast, Int.toNat_of_nonneg (by omega)]

/-! ## Decimals -/

/-- The table of the powers of ten that are doubles. -/
theorem value?_powersOfTen {i : ℕ} (hi : i < Float.exactlyRepresentablePowersOfTen.size) :
    value? Float.exactlyRepresentablePowersOfTen[i] = some (10 ^ i) := by
  have htable : ∀ i : Fin 23, (Exact.ofFloat? Float.exactlyRepresentablePowersOfTen[i]).any
      fun v => !v.negative && v.num == 10 ^ (i : ℕ) * v.den := by
    decide +kernel
  obtain ⟨v, hv, hpower⟩ := (Option.any_eq_true _ _).mp (htable ⟨i, hi⟩)
  rw [Bool.and_eq_true, Bool.not_eq_true', beq_iff_eq] at hpower
  have hden : (v.den : ℚ) ≠ 0 := by exact_mod_cast v.den_pos.ne'
  have hvalue : v.value = 10 ^ i := by
    rw [Exact.value, Exact.signedNum, hpower.1, hpower.2, div_eq_iff hden]
    push_cast
    rfl
  rw [← hvalue]
  exact value?_of_exact hv

/-- A decimal in the source of a program is the double nearest to it. -/
theorem float_ofScientific_rounds {m : ℕ} (hm : 0 < m) (negative : Bool) {e : ℕ} (he : e ≤ 2048) :
    Rounds (m * 10 ^ (if negative then -e else e : ℤ)) (Float.ofScientific m negative e) := by
  by_cases hfast : m < 2 ^ 53 ∧ e ≤ 22
  · have hmantissa := value?_toFloat hfast.1
    have htable : e < Float.exactlyRepresentablePowersOfTen.size := Nat.lt_succ_of_le hfast.2
    have hpower := value?_powersOfTen htable
    cases negative with
    | true =>
      have hquotient : Float.ofScientific m true e =
          m.toUInt64.toFloat / Float.exactlyRepresentablePowersOfTen[e] := dif_pos hfast
      have hrounds := div_rounds hmantissa hpower (by positivity)
      rw [hquotient, if_pos rfl, zpow_neg, zpow_natCast, ← div_eq_mul_inv]
      exact hrounds
    | false =>
      have hproduct : Float.ofScientific m false e =
          m.toUInt64.toFloat * Float.exactlyRepresentablePowersOfTen[e] := dif_pos hfast
      have hrounds := mul_rounds hmantissa hpower
      rw [hproduct, if_neg Bool.false_ne_true, zpow_natCast]
      exact hrounds
  · have hslow : Float.ofScientific m negative e =
        .ofModel (.ofScientific m (if negative then .negOfNat e else .ofNat e)) := dif_neg hfast
    rw [hslow]
    have hexponent : (if negative then .negOfNat e else .ofNat e : ℤ) =
        if negative then -(e : ℤ) else e := by
      cases negative with
      | true => exact Int.negOfNat_eq
      | false => rfl
    rw [hexponent]
    refine ofScientific_rounds hm ?_ ?_ rfl
    · split <;> omega
    · split <;> omega

end ImplicitPlot.Number

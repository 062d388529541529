import ImplicitPlot.Proofs.Number.Nearest
import Mathlib

/-
  The rounding of doubles is `nearest`. Before a result is rounded it stands as a mantissa with
  two more bits, of which the second says whether anything is left behind them (`Stands`).
  Shifting keeps that reading, so a mantissa that is shifted to its place and rounded is
  `halfEven` of the number in units of its quantum (`roundWithAccuracy_spec`). The result is a
  zero or canonical: it has all its bits, or its exponent is the lowest.
-/
namespace ImplicitPlot.Number

open Float.Model Float.Model.UnpackedFloat

/-! ## Mantissas with two more bits -/

/-- The bits of a mantissa and what is left behind them make up a number. -/
def Stands (em : ExtendedMantissa) (r : ℚ) : Prop :=
  ∃ t : ℚ, 0 ≤ t ∧ t < 1 / 2 ∧ r = em.mantissa + em.roundBit.toNat / 2 + t ∧
    (t = 0 ↔ em.stickyBit = false)

namespace Stands

variable {em : ExtendedMantissa} {r : ℚ}

theorem mantissa_le (h : Stands em r) : (em.mantissa : ℚ) ≤ r := by
  obtain ⟨t, h0, -, rfl, -⟩ := h
  have hbit : (0 : ℚ) ≤ em.roundBit.toNat := Nat.cast_nonneg _
  linarith

theorem lt_mantissa_add_one (h : Stands em r) : r < em.mantissa + 1 := by
  obtain ⟨t, -, h1, rfl, -⟩ := h
  have hbit : (em.roundBit.toNat : ℚ) ≤ 1 := by exact_mod_cast Bool.toNat_le em.roundBit
  linarith

/-- Rounding a mantissa by its two more bits rounds the number. -/
theorem roundedMantissa_eq (h : Stands em r) : (em.roundedMantissa : ℤ) = halfEven r := by
  obtain ⟨t, h0, h1, rfl, hsticky⟩ := h
  obtain ⟨m, roundBit, stickyBit⟩ := em
  have hround := halfEven_add (n := (m : ℤ)) (t := (roundBit.toNat : ℚ) / 2 + t)
  have hparity : Even (m : ℤ) ↔ m % 2 = 0 := by rw [Int.even_coe_nat, Nat.even_iff]
  rw [Int.cast_natCast, ← add_assoc] at hround
  cases roundBit <;> cases stickyBit <;>
    simp only [Bool.toNat_true, Bool.toNat_false, Nat.cast_zero, Nat.cast_one, zero_div, zero_add,
      add_zero, iff_true, reduceCtorEq, iff_false] at hround hsticky ⊢
  · rw [hround h0 (by linarith), if_pos (Or.inl h1)]
    rfl
  · rw [hround h0 (by linarith), if_pos (Or.inl h1)]
    rfl
  · subst hsticky
    rw [hround (by norm_num) (by norm_num)]
    simp only [add_zero, lt_irrefl, true_and, false_or, hparity]
    show ((m + m % 2 : ℕ) : ℤ) = _
    split <;> omega
  · have hpos : 0 < t := lt_of_le_of_ne h0 (Ne.symm hsticky)
    rw [hround (by linarith) (by linarith), if_neg (by rintro (h | ⟨h, -⟩) <;> linarith)]
    rfl

theorem shiftRightOne (h : Stands em r) : Stands em.shiftRightOne (r / 2) := by
  obtain ⟨t, h0, h1, rfl, hsticky⟩ := h
  have hmantissa : (em.mantissa : ℚ) = 2 * (em.mantissa / 2 : ℕ) + (em.mantissa % 2 : ℕ) := by
    exact_mod_cast (Nat.div_add_mod em.mantissa 2).symm
  have hlast : ((em.mantissa % 2 != 0).toNat : ℚ) = (em.mantissa % 2 : ℕ) := by
    rcases Nat.mod_two_eq_zero_or_one em.mantissa with hm | hm <;> simp [hm]
  have hbit : (em.roundBit.toNat : ℚ) ≤ 1 := by exact_mod_cast Bool.toNat_le em.roundBit
  have hbit0 : (0 : ℚ) ≤ em.roundBit.toNat := Nat.cast_nonneg _
  refine ⟨em.roundBit.toNat / 4 + t / 2, by linarith, by linarith, ?_, ?_⟩
  · show _ = ((em.mantissa / 2 : ℕ) : ℚ) + (em.mantissa % 2 != 0).toNat / 2 + _
    rw [hlast, hmantissa]
    ring
  · show _ ↔ (em.roundBit || em.stickyBit) = false
    rw [Bool.or_eq_false_iff, ← hsticky]
    cases em.roundBit with
    | false => simp
    | true =>
      simp only [Bool.toNat_true, Nat.cast_one, Bool.true_eq_false, false_and, iff_false]
      linarith

theorem shiftRight (h : Stands em r) (n : ℕ) : Stands (em >>> n) (r / 2 ^ n) := by
  have hn : Stands (n.repeat ExtendedMantissa.shiftRightOne em) (r / 2 ^ n) := by
    induction n with
    | zero => simpa [Nat.repeat] using h
    | succ n ih =>
      rw [pow_succ, ← div_div]
      exact ih.shiftRightOne
  exact hn

theorem exact (m : ℕ) : Stands (.ofMantissaAndAccuracy m .exact) m :=
  ⟨0, le_refl 0, by norm_num, by simp [ExtendedMantissa.ofMantissaAndAccuracy], by
    simp [ExtendedMantissa.ofMantissaAndAccuracy]⟩

/-- A quotient stands with its remainder as accuracy. -/
theorem quotient {m n : ℕ} (hn : 0 < n) :
    Stands (.ofMantissaAndAccuracy (m / n) (accuracyOfFraction (m % n) n)) (m / n : ℚ) := by
  have hn' : (0 : ℚ) < n := by exact_mod_cast hn
  have hsplit : (m / n : ℚ) = (m / n : ℕ) + (m % n : ℕ) / n := by
    have hm : (m : ℚ) = n * (m / n : ℕ) + (m % n : ℕ) := by
      exact_mod_cast (Nat.div_add_mod m n).symm
    field_simp
    linarith
  have hlt : ((m % n : ℕ) : ℚ) / n < 1 := by
    rw [div_lt_one hn']
    exact_mod_cast Nat.mod_lt m hn
  have h0 : (0 : ℚ) ≤ (m % n : ℕ) / n := by positivity
  rw [hsplit, accuracyOfFraction]
  by_cases hzero : m % n = 0
  · rw [if_pos hzero, hzero]
    simpa using exact (m / n)
  · have hpos : (0 : ℚ) < (m % n : ℕ) / n :=
      div_pos (by exact_mod_cast Nat.pos_of_ne_zero hzero) hn'
    rw [if_neg hzero]
    rcases lt_trichotomy (2 * (m % n)) n with hcompare | hcompare | hcompare
    · have hhalf : ((m % n : ℕ) : ℚ) / n < 1 / 2 := by
        rw [div_lt_div_iff₀ hn' (by norm_num)]
        exact_mod_cast (by omega : m % n * 2 < 1 * n)
      rw [Nat.compare_eq_lt.mpr hcompare]
      refine ⟨_, h0, hhalf, ?_, ?_⟩ <;>
        simp [ExtendedMantissa.ofMantissaAndAccuracy, hpos.ne']
    · have hhalf : ((m % n : ℕ) : ℚ) / n = 1 / 2 := by
        rw [div_eq_div_iff hn'.ne' (by norm_num)]
        exact_mod_cast (by omega : m % n * 2 = 1 * n)
      rw [Nat.compare_eq_eq.mpr hcompare, hhalf]
      refine ⟨0, le_refl 0, by norm_num, ?_, ?_⟩ <;>
        simp [ExtendedMantissa.ofMantissaAndAccuracy]
    · have hhalf : 1 / 2 < ((m % n : ℕ) : ℚ) / n := by
        rw [div_lt_div_iff₀ (by norm_num) hn']
        exact_mod_cast (by omega : 1 * n < m % n * 2)
      rw [Nat.compare_eq_gt.mpr hcompare]
      refine ⟨(m % n : ℕ) / n - 1 / 2, by linarith, by linarith, ?_, ?_⟩
      · simp only [ExtendedMantissa.ofMantissaAndAccuracy, Bool.toNat_true, Nat.cast_one]
        ring
      · simp only [ExtendedMantissa.ofMantissaAndAccuracy, Bool.true_eq_false, iff_false]
        linarith

end Stands

/-! ## Rounding to a double -/

/-- The mantissas and exponents of doubles, but for a bound of the exponent above. -/
structure Canonical (m : ℕ) (e : ℤ) : Prop where
  lt : m < 2 ^ 53
  le_exponent : -1074 ≤ e
  normal : 2 ^ 52 ≤ m ∨ e = -1074

theorem targetExponent_eq (e : ℤ) : Format.binary64.targetExponent e = max (e - 53) (-1074) := rfl

/-- The first bit of a number is that of its mantissa. -/
theorem log_eq_log2_add {m : ℕ} (hm : m ≠ 0) {e : ℤ} {v : ℚ} (hlow : (m : ℚ) * 2 ^ e ≤ v)
    (hhigh : v < (m + 1) * 2 ^ e) : Int.log 2 v = m.log2 + e := by
  have hunit : (0 : ℚ) < 2 ^ e := zpow_pos (by norm_num) e
  have hpos : (0 : ℚ) < m := by exact_mod_cast Nat.pos_of_ne_zero hm
  have hv : 0 < v := lt_of_lt_of_le (mul_pos hpos hunit) hlow
  have hmlow : 2 ^ m.log2 ≤ m := Nat.log2_self_le hm
  have hmhigh : m + 1 ≤ 2 ^ (m.log2 + 1) := Nat.lt_log2_self
  have hv1 : ((2 : ℕ) : ℚ) ^ ((m.log2 : ℤ) + e) ≤ v := by
    rw [zpow_add₀ (by norm_num), zpow_natCast]
    refine le_trans (mul_le_mul_of_nonneg_right ?_ hunit.le) hlow
    exact_mod_cast hmlow
  have hv2 : v < ((2 : ℕ) : ℚ) ^ ((m.log2 : ℤ) + e + 1) := by
    rw [add_right_comm, zpow_add₀ (by norm_num)]
    refine lt_of_lt_of_le hhigh (mul_le_mul_of_nonneg_right ?_ hunit.le)
    exact_mod_cast hmhigh
  have h1 := (Int.zpow_le_iff_le_log (by norm_num) hv).mp hv1
  have h2 := (Int.lt_zpow_iff_log_lt (by norm_num) hv).mp hv2
  omega

theorem mantissa_pos {m : ℕ} (hm : 0 < m) (e : ℤ) : (0 : ℚ) < m * 2 ^ e :=
  mul_pos (by exact_mod_cast hm) (zpow_pos (by norm_num) e)

/-- The place of the last bit of a number that is written out. -/
theorem quantumExponent_eq {m : ℕ} (hm : m ≠ 0) (e : ℤ) :
    quantumExponent (m * 2 ^ e) = max (m.log2 + e - 52) (-1074) := by
  have hunit : (0 : ℚ) < 2 ^ e := zpow_pos (by norm_num) e
  have hpos := mantissa_pos (Nat.pos_of_ne_zero hm) e
  rw [quantumExponent, abs_of_pos hpos, log_eq_log2_add hm (le_refl _) (by linarith)]

/-- The place of the last bit is known from the mantissa of a number, if that has enough bits. -/
theorem targetExponent_of_stands {m : ℕ} {e : ℤ} {acc : Accuracy} {v : ℚ} (hv : 0 < v)
    (h : Stands (.ofMantissaAndAccuracy m acc) (v / 2 ^ e)) (he : e ≤ quantumExponent v) :
    Format.binary64.targetExponent (totalExponent m e) = quantumExponent v := by
  have hmantissa : (ExtendedMantissa.ofMantissaAndAccuracy m acc).mantissa = m := by
    cases acc with
    | exact => rfl
    | inexact ord => cases ord <;> rfl
  have hunit : (0 : ℚ) < 2 ^ e := zpow_pos (by norm_num) e
  have hlow := h.mantissa_le
  have hhigh := h.lt_mantissa_add_one
  rw [hmantissa, le_div_iff₀ hunit] at hlow
  rw [hmantissa, div_lt_iff₀ hunit] at hhigh
  rw [targetExponent_eq, totalExponent]
  rw [quantumExponent, abs_of_pos hv] at he ⊢
  by_cases hm : m = 0
  · have hlog : Int.log 2 v < e := by
      refine (Int.lt_zpow_iff_log_lt (by norm_num) hv).mp ?_
      simpa [hm] using hhigh
    rw [hm, Nat.log2_zero]
    omega
  · have hlog := log_eq_log2_add hm hlow hhigh
    omega

/-- A number is rounded to at most `2 ^ 53` quanta, and to at least `2 ^ 52` where its quantum is
not the smallest one. -/
theorem halfEven_bounds {v : ℚ} (hv : 0 < v) :
    0 ≤ halfEven (v / quantum v) ∧ halfEven (v / quantum v) ≤ 2 ^ 53 ∧
      (2 ^ 52 ≤ halfEven (v / quantum v) ∨ quantumExponent v = -1074) := by
  have herror := abs_le.mp (abs_halfEven_sub_le (v / quantum v))
  have hq := quantum_pos v
  have hpos : 0 < v / quantum v := div_pos hv hq
  have hlt : v / quantum v < 2 ^ 53 := by
    have hlog : v < ((2 : ℕ) : ℚ) ^ (Int.log 2 v + 1) := Int.lt_zpow_succ_log_self (by norm_num) v
    rw [div_lt_iff₀ hq, quantum, ← zpow_natCast, ← zpow_add₀ (by norm_num)]
    refine lt_of_lt_of_le hlog ?_
    rw [quantumExponent, abs_of_pos hv]
    exact zpow_le_zpow_right₀ (by norm_num) (by omega)
  refine ⟨?_, ?_, ?_⟩
  · have h : (-1 : ℚ) < halfEven (v / quantum v) := by linarith
    have h' : (-1 : ℤ) < halfEven (v / quantum v) := by exact_mod_cast h
    omega
  · have h : (halfEven (v / quantum v) : ℚ) < 2 ^ 53 + 1 := by linarith
    have h' : halfEven (v / quantum v) < 2 ^ 53 + 1 := by exact_mod_cast h
    omega
  · by_cases hnormal : -1074 ≤ Int.log 2 |v| - 52
    · have hle : (2 : ℚ) ^ 52 ≤ v / quantum v := by
        have hquantum := quantum_le_of_normal hv.ne' hnormal
        rw [abs_of_pos hv, le_div_iff₀ (by positivity)] at hquantum
        rw [le_div_iff₀ hq]
        linarith
      have h : (2 ^ 52 - 1 : ℚ) < halfEven (v / quantum v) := by linarith
      have h' : (2 ^ 52 - 1 : ℤ) < halfEven (v / quantum v) := by exact_mod_cast h
      exact Or.inl (by omega)
    · exact Or.inr (by rw [quantumExponent]; omega)

/-- A mantissa of one bit too many is halved, and any other one stands as it is. -/
theorem shiftToTargetExponent_spec {k : ℕ} {e : ℤ} (hk : k ≤ 2 ^ 53) (he : -1074 ≤ e)
    (hnormal : 2 ^ 52 ≤ k ∨ e = -1074) :
    let shifted := shiftToTargetExponent .binary64 k e .exact
    Canonical shifted.1.mantissa shifted.2 ∧
      (shifted.1.mantissa : ℚ) * 2 ^ shifted.2 = k * 2 ^ e := by
  have hshift : shiftToTargetExponent .binary64 k e .exact =
      (ExtendedMantissa.ofMantissaAndAccuracy k .exact >>>
        (max ((k.log2 : ℤ) + 1 + e - 53) (-1074) - e).toNat,
        e + (max ((k.log2 : ℤ) + 1 + e - 53) (-1074) - e).toNat) := rfl
  intro shifted
  rcases hk.eq_or_lt with rfl | hlt
  · have hlog : (2 ^ 53).log2 = 53 := Nat.log2_two_pow
    have hamount : (max (((2 ^ 53).log2 : ℤ) + 1 + e - 53) (-1074) - e).toNat = 1 := by
      rw [hlog]
      omega
    have hone : shifted = (ExtendedMantissa.shiftRightOne ⟨2 ^ 53, false, false⟩, e + 1) := by
      show shiftToTargetExponent .binary64 (2 ^ 53) e .exact = _
      rw [hshift, hamount]
      rfl
    rw [hone]
    refine ⟨⟨by norm_num [ExtendedMantissa.shiftRightOne], by omega, Or.inl ?_⟩, ?_⟩
    · norm_num [ExtendedMantissa.shiftRightOne]
    · rw [zpow_add₀ (by norm_num), zpow_one]
      norm_num [ExtendedMantissa.shiftRightOne]
      ring
  · have hlog : k.log2 ≤ 52 := by
      by_cases hzero : k = 0
      · rw [hzero, Nat.log2_zero]
        omega
      · have := (Nat.log2_lt hzero).mpr hlt
        omega
    have hamount : (max ((k.log2 : ℤ) + 1 + e - 53) (-1074) - e).toNat = 0 := by omega
    have hzero : shifted = (⟨k, false, false⟩, e) := by
      show shiftToTargetExponent .binary64 k e .exact = _
      rw [hshift, hamount, Nat.cast_zero, add_zero]
      rfl
    rw [hzero]
    exact ⟨⟨hlt, he, hnormal⟩, rfl⟩

/-- An unpacked number of a sign has the magnitude of the double that is nearest to `v`. -/
def RoundedTo (s : Sign) (v : ℚ) (u : UnpackedFloat) : Prop :=
  nearest v = 0 ∧ u = .zero s ∨
    ∃ m e h, u = .finite s m e h ∧ Canonical m e ∧ (m : ℚ) * 2 ^ e = nearest v

/-- The first shift brings a mantissa to the place of the last bit, where it is rounded. -/
theorem shiftToTargetExponent_rounded {m : ℕ} {e : ℤ} {acc : Accuracy} {v : ℚ} (hv : 0 < v)
    (h : Stands (.ofMantissaAndAccuracy m acc) (v / 2 ^ e)) (he : e ≤ quantumExponent v) :
    let shifted := shiftToTargetExponent .binary64 m e acc
    shifted.1.roundedMantissa = (halfEven (v / quantum v)).toNat ∧
      shifted.2 = quantumExponent v := by
  have hplace : e + ((quantumExponent v - e).toNat : ℤ) = quantumExponent v := by omega
  rw [shiftToTargetExponent, targetExponent_of_stands hv h he, shiftToExponent]
  refine ⟨?_, hplace⟩
  have hstands := h.shiftRight (quantumExponent v - e).toNat
  have hunit : v / 2 ^ e / 2 ^ (quantumExponent v - e).toNat = v / quantum v := by
    rw [div_div, ← zpow_natCast, ← zpow_add₀ (by norm_num), hplace]
    rfl
  rw [hunit] at hstands
  have hrounded := hstands.roundedMantissa_eq
  dsimp only
  omega

/-- What stands with at least the bits of a double is rounded to the nearest one. -/
theorem roundWithAccuracy_spec (s : Sign) {m : ℕ} {e : ℤ} {acc : Accuracy} {v : ℚ} (hv : 0 < v)
    (h : Stands (.ofMantissaAndAccuracy m acc) (v / 2 ^ e)) (he : e ≤ quantumExponent v) :
    RoundedTo s v (roundWithAccuracy .binary64 s m e acc) := by
  obtain ⟨h0, hle, hnormal⟩ := halfEven_bounds hv
  obtain ⟨hk, hexponent⟩ := shiftToTargetExponent_rounded hv h he
  have hk' : ((halfEven (v / quantum v)).toNat : ℚ) = halfEven (v / quantum v) := by
    exact_mod_cast Int.toNat_of_nonneg h0
  obtain ⟨hcanonical, hvalue⟩ := shiftToTargetExponent_spec (e := quantumExponent v)
    (k := (halfEven (v / quantum v)).toNat) (by omega) (le_max_right _ _) (by omega)
  rw [hk'] at hvalue
  unfold roundWithAccuracy
  simp only [hk, hexponent]
  split
  · rename_i hzero
    rw [hzero] at hvalue
    refine Or.inl ⟨hvalue.symm.trans ?_, rfl⟩
    simp
  · exact Or.inr ⟨_, _, _, rfl, hcanonical, hvalue⟩

/-- A mantissa of any length is rounded to the nearest double. -/
theorem round_spec (s : Sign) {m : ℕ} (hm : 0 < m) (e : ℤ) :
    RoundedTo s (m * 2 ^ e) (Float.Model.UnpackedFloat.round .binary64 s m e) := by
  have hv := mantissa_pos hm e
  have htarget : Format.binary64.targetExponent (totalExponent m e) =
      quantumExponent (m * 2 ^ e) := by
    rw [quantumExponent_eq hm.ne', targetExponent_eq, totalExponent]
    omega
  unfold Float.Model.UnpackedFloat.round decreaseExponent
  rw [htarget]
  dsimp only
  refine roundWithAccuracy_spec s hv ?_ (by omega)
  have hshifted : (m * 2 ^ e : ℚ) / 2 ^ (e - (e - quantumExponent (m * 2 ^ e)).toNat) =
      (m <<< (e - quantumExponent (m * 2 ^ e)).toNat : ℕ) := by
    rw [zpow_sub₀ (by norm_num), zpow_natCast, Nat.shiftLeft_eq]
    have hunit : (2 : ℚ) ^ e ≠ 0 := (zpow_pos (by norm_num) e).ne'
    push_cast
    field_simp
  rw [hshifted]
  exact Stands.exact _

end ImplicitPlot.Number

import ImplicitPlot.Contour.Corners
import ImplicitPlot.Proofs.Number.Words

/-
  Where contours cross the sides of cells. The values at the ends of a side differ in sign, so
  the quotient that gives the crossing is between zero and the length of the side, and rounding
  its product, its difference and itself moves it by less than half a pixel (`crossing_mem`). The
  exception is a product that is too large for a double while the difference is not: the quotient
  is infinite then, and the crossing is the largest word (`crossing_of_overflows`).
-/
namespace ImplicitPlot.Contour

open Number
open Float.Model (UnpackedFloat)
open Float.Model.UnpackedFloat

theorem isPositive_iff {x : Float} {v : ℚ} (h : value? x = some v) :
    isPositive x = true ↔ 0 ≤ v := by
  rw [isPositive, decide_eq_true_eq, ge_zero_iff h]

/-! ## The quotient -/

/-- The quotient of a product and a difference that were rounded, for values of which the first
is positive. -/
theorem quotient_mem_of_pos {u d n p q : ℚ} (hu : 0 ≤ u) (hd : u ≤ d) (hpos : 0 < d) (hn : 0 ≤ n)
    (hsize : n ≤ 2 ^ 31) (hp : |p - u * n| ≤ |u * n| / 2 ^ 53) (hq : |q - d| ≤ |d| / 2 ^ 53) :
    0 ≤ p / q ∧ p / q ≤ n + 1 / 4 := by
  have hproduct : 0 ≤ u * n := mul_nonneg hu hn
  have hscaled : u * n ≤ d * n := mul_le_mul_of_nonneg_right hd hn
  have hbounded : d * n ≤ d * 2 ^ 31 := mul_le_mul_of_nonneg_left hsize hpos.le
  rw [abs_of_nonneg hproduct, abs_le] at hp
  rw [abs_of_pos hpos, abs_le] at hq
  have hq0 : 0 < q := by linarith
  constructor
  · exact div_nonneg (by linarith) hq0.le
  · rw [div_le_iff₀ hq0]
    have hlow : (n + 1 / 4) * (d * (1 - 1 / 2 ^ 53)) ≤ (n + 1 / 4) * q :=
      mul_le_mul_of_nonneg_left (by linarith) (by linarith)
    linarith

/-- The quotient of a product and a difference that were rounded is on the side. -/
theorem quotient_mem {u d n p q : ℚ} (hsigns : 0 ≤ u ∧ u ≤ d ∧ 0 < d ∨ u ≤ 0 ∧ d ≤ u ∧ d < 0)
    (hn : 0 ≤ n) (hsize : n ≤ 2 ^ 31) (hp : |p - u * n| ≤ |u * n| / 2 ^ 53)
    (hq : |q - d| ≤ |d| / 2 ^ 53) : 0 ≤ p / q ∧ p / q ≤ n + 1 / 4 := by
  obtain ⟨hu, hd, hpos⟩ | ⟨hu, hd, hneg⟩ := hsigns
  · exact quotient_mem_of_pos hu hd hpos hn hsize hp hq
  · have hp' : |-p - -u * n| ≤ |-u * n| / 2 ^ 53 := by
      rwa [neg_mul, abs_neg, neg_sub_neg, abs_sub_comm]
    have hq' : |-q - -d| ≤ |-d| / 2 ^ 53 := by
      rwa [abs_neg, neg_sub_neg, abs_sub_comm]
    have := quotient_mem_of_pos (by linarith) (by linarith) (by linarith) hn hsize hp' hq'
    rwa [neg_div_neg_eq] at this

/-- The last bit of a number that fits a word is far behind the point. -/
theorem quantum_le_of_le {x : ℚ} (h0 : 0 ≤ x) (h : x ≤ 2 ^ 32) : quantum x ≤ 1 / 8 := by
  have hlog : Int.log 2 |x| ≤ 32 := by
    rw [abs_of_nonneg h0]
    rcases h0.eq_or_lt with rfl | hpos
    · rw [Int.log_zero_right]
      norm_num
    · have hlt : x < ((2 : ℕ) : ℚ) ^ (33 : ℤ) := lt_of_le_of_lt h (by norm_num)
      have := (Int.lt_zpow_iff_log_lt (by norm_num) hpos).mp hlt
      omega
  have heighth : (2 : ℚ) ^ (-3 : ℤ) = 1 / 8 := by norm_num
  rw [quantum, ← heighth]
  refine zpow_le_zpow_right₀ (by norm_num) ?_
  rw [quantumExponent]
  omega

/-! ## The crossing -/

/-- The product that a crossing is computed from is too large for a double, and the difference is
not. -/
def Overflows (a b : Float) (size : ℤ) : Prop :=
  (a * .ofInt size).isFinite = false ∧ (a - b).isFinite = true

/-- Two values of different sign and a side of some pixels, with what they are as numbers. -/
structure Ends (a b : Float) (size : ℤ) (u w : ℚ) : Prop where
  first : value? a = some u
  second : value? b = some w
  signs : isPositive a ≠ isPositive b
  size_pos : 1 ≤ size
  size_lt : size < 2 ^ 31

namespace Ends

variable {a b : Float} {size : ℤ} {u w : ℚ}

theorem signs_cases (h : Ends a b size u w) :
    0 ≤ u ∧ u ≤ u - w ∧ 0 < u - w ∨ u ≤ 0 ∧ u - w ≤ u ∧ u - w < 0 := by
  have ha := isPositive_iff h.first
  have hb := isPositive_iff h.second
  have hsigns := h.signs
  by_cases hu : 0 ≤ u
  · have hw : ¬0 ≤ w := fun hw => hsigns ((ha.mpr hu).trans (hb.mpr hw).symm)
    exact Or.inl ⟨hu, by linarith, by linarith⟩
  · have hw : 0 ≤ w := by
      by_contra hw
      have ha' : isPositive a = false := by simpa [hu] using ha
      have hb' : isPositive b = false := by simpa [hw] using hb
      exact hsigns (ha'.trans hb'.symm)
    exact Or.inr ⟨by linarith, by linarith, by linarith⟩

theorem value?_size (h : Ends a b size u w) : value? (Float.ofInt size) = some (size : ℚ) := by
  have hpos := h.size_pos
  have hlt := h.size_lt
  obtain ⟨n, rfl⟩ := Int.eq_ofNat_of_zero_le (by omega : 0 ≤ size)
  exact value?_ofNat (by omega)

theorem product_rounds (h : Ends a b size u w) : Rounds (u * size) (a * .ofInt size) :=
  mul_rounds h.first h.value?_size

theorem difference_rounds (h : Ends a b size u w) : Rounds (u - w) (a - b) :=
  sub_rounds h.first h.second

theorem product_error (h : Ends a b size u w) :
    |nearest (u * size) - u * size| ≤ |u * size| / 2 ^ 53 := by
  obtain ⟨k, hk⟩ := exists_multiple h.first
  refine abs_nearest_sub_le_of_multiple (k := k * size) ?_
  rw [hk, Int.cast_mul, mul_right_comm]

theorem difference_error (h : Ends a b size u w) :
    |nearest (u - w) - (u - w)| ≤ |u - w| / 2 ^ 53 := by
  obtain ⟨k, hk⟩ := exists_multiple h.first
  obtain ⟨l, hl⟩ := exists_multiple h.second
  refine abs_nearest_sub_le_of_multiple (k := k - l) ?_
  rw [hk, hl, Int.cast_sub, sub_mul]

/-- The rounded difference has the sign of the difference. -/
theorem nearest_difference (h : Ends a b size u w) :
    0 < u - w ∧ 0 < nearest (u - w) ∨ u - w < 0 ∧ nearest (u - w) < 0 := by
  have herror := abs_le.mp h.difference_error
  rcases h.signs_cases with ⟨-, -, hpos⟩ | ⟨-, -, hneg⟩
  · rw [abs_of_pos hpos] at herror
    exact Or.inl ⟨hpos, by linarith⟩
  · rw [abs_of_neg hneg] at herror
    exact Or.inr ⟨hneg, by linarith⟩

/-- Where product and difference are doubles, the crossing is on the side. -/
theorem crossing_mem_of_values (h : Ends a b size u w)
    (hp : value? (a * .ofInt size) = some (nearest (u * size)))
    (hd : value? (a - b) = some (nearest (u - w))) :
    0 ≤ crossing a b size ∧ crossing a b size ≤ size := by
  have hpos : (1 : ℚ) ≤ size := by exact_mod_cast h.size_pos
  have hlt : (size : ℚ) ≤ 2 ^ 31 := by exact_mod_cast h.size_lt.le
  have hne : nearest (u - w) ≠ 0 := by
    rcases h.nearest_difference with ⟨-, hd⟩ | ⟨-, hd⟩
    · exact hd.ne'
    · exact hd.ne
  obtain ⟨hlow, hhigh⟩ := quotient_mem h.signs_cases (by linarith) hlt h.product_error
    h.difference_error
  generalize hr : nearest (u * size) / nearest (u - w) = r at hlow hhigh
  have hquantum := quantum_le_of_le hlow (by linarith)
  have herror := abs_le.mp (abs_nearest_sub_le r)
  have hsmall : |nearest r| < tooLarge := by
    refine lt_tooLarge ?_
    rw [abs_le]
    constructor <;> linarith
  have hquotient : value? (a * .ofInt size / (a - b)) = some (nearest r) := by
    have hrounds := div_rounds hp hd hne
    rw [hr] at hrounds
    exact hrounds.value?_eq hsmall
  exact signedWord_round_mem hquotient h.size_lt (by linarith) (by linarith)

/-- A difference that is too large leaves nothing of a quotient, or no number. -/
theorem crossing_of_infinite_difference (h : Ends a b size u w) {t : Sign}
    (hd : (a - b).toModel.unpack = .infinity t) : crossing a b size = 0 := by
  have hquotient : (a * .ofInt size / (a - b)).toModel.unpack = unpack .binary64 (pack .binary64
      (UnpackedFloat.div .binary64 (a * .ofInt size).toModel.unpack (a - b).toModel.unpack)) := rfl
  rw [hd] at hquotient
  obtain ⟨-, hp⟩ | ⟨-, hp⟩ := h.product_rounds
  · have hzero : ∃ s, (a * .ofInt size / (a - b)).toModel.unpack = .zero s := by
      obtain ⟨s, hs, -⟩ | ⟨s, m, e, hm, hs, -⟩ := unpack_of_value? hp
      · rw [hs] at hquotient
        exact ⟨_, hquotient.trans (unpack_zero _)⟩
      · rw [hs] at hquotient
        exact ⟨_, hquotient.trans (unpack_zero _)⟩
    obtain ⟨s, hs⟩ := hzero
    have hmem := signedWord_round_mem (value?_zero hs) (n := 0) (by norm_num) (by norm_num)
      (by norm_num)
    exact le_antisymm hmem.2 hmem.1
  · rw [hp] at hquotient
    exact signedWord_notANumber (hquotient.trans unpack_notANumber) 32 Exact.round

/-- The crossing is on the side, unless the product overflows alone. -/
theorem crossing_mem (h : Ends a b size u w) (hover : ¬Overflows a b size) :
    0 ≤ crossing a b size ∧ crossing a b size ≤ size := by
  obtain ⟨-, hd⟩ | ⟨-, hd⟩ := h.difference_rounds
  · obtain ⟨-, hp⟩ | ⟨-, hp⟩ := h.product_rounds
    · exact h.crossing_mem_of_values hp hd
    · refine absurd ⟨?_, isFinite_iff.mpr ⟨_, hd⟩⟩ hover
      rw [Bool.eq_false_iff]
      intro hfinite
      obtain ⟨v, hv⟩ := isFinite_iff.mp hfinite
      rw [value?_infinity hp] at hv
      cases hv
  · have hpos := h.size_pos
    rw [h.crossing_of_infinite_difference hd]
    omega

/-- A product that is too large and the difference have one sign. -/
theorem unpack_difference (h : Ends a b size u w) (htop : tooLarge ≤ |nearest (u * size)|)
    (hd : value? (a - b) = some (nearest (u - w))) :
    ∃ m e hm, (a - b).toModel.unpack = .finite (signOf (u * size)) m e hm := by
  have hpos : (0 : ℚ) < size := by exact_mod_cast h.size_pos
  have hsign := h.nearest_difference
  obtain ⟨t, -, hzero⟩ | ⟨t, m, e, hm, ht, -, -, hvalue⟩ := unpack_of_value? hd
  · rcases hsign with ⟨-, hn⟩ | ⟨-, hn⟩ <;> linarith
  · have hmagnitude := mantissa_pos hm e
    rw [hvalue, mul_assoc] at hsign
    rcases h.signs_cases with ⟨hu, -, hdiff⟩ | ⟨hu, -, hdiff⟩
    · have hproduct : signOf (u * size) = .positive :=
        if_neg (not_lt.mpr (mul_nonneg hu hpos.le))
      cases t with
      | positive => exact ⟨m, e, hm, hproduct ▸ ht⟩
      | negative =>
        rw [factor_negative] at hsign
        rcases hsign with ⟨-, hn⟩ | ⟨hn, -⟩ <;> linarith
    · have hne : u ≠ 0 := by
        rintro rfl
        rw [zero_mul, nearest_zero, abs_zero] at htop
        exact absurd tooLarge_pos (not_lt.mpr htop)
      have hproduct : signOf (u * size) = .negative :=
        if_pos (mul_neg_of_neg_of_pos (lt_of_le_of_ne hu hne) hpos)
      cases t with
      | negative => exact ⟨m, e, hm, hproduct ▸ ht⟩
      | positive =>
        rw [factor_positive] at hsign
        rcases hsign with ⟨hn, -⟩ | ⟨-, hn⟩ <;> linarith

/-- A product that overflows alone makes the crossing the largest word. -/
theorem crossing_of_overflows (h : Ends a b size u w) (hover : Overflows a b size) :
    crossing a b size = 2 ^ 31 - 1 := by
  obtain ⟨hproduct, hdifference⟩ := hover
  obtain ⟨v, hv⟩ := isFinite_iff.mp hdifference
  obtain ⟨-, hd⟩ | ⟨-, hd⟩ := h.difference_rounds
  · obtain ⟨-, hp⟩ | ⟨htop, hp⟩ := h.product_rounds
    · rw [Bool.eq_false_iff, ne_eq, isFinite_iff] at hproduct
      exact absurd ⟨_, hp⟩ hproduct
    · obtain ⟨m, e, hm, hd'⟩ := h.unpack_difference htop hd
      have hquotient : (a * .ofInt size / (a - b)).toModel.unpack = .infinity .positive := by
        have hdiv : (a * .ofInt size / (a - b)).toModel.unpack = unpack .binary64 (pack .binary64
          (UnpackedFloat.div .binary64 (a * .ofInt size).toModel.unpack
            (a - b).toModel.unpack)) := rfl
        rw [hdiv, hp, hd']
        cases signOf (u * size) <;> exact unpack_infinity .positive
      exact signedWord_infinity hquotient 32 Exact.round
  · rw [value?_infinity hd] at hv
    cases hv

end Ends

end ImplicitPlot.Contour

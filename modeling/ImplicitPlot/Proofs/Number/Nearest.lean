import ImplicitPlot.Number.Exact
import Mathlib.Data.Int.Log
import Mathlib.Data.Rat.Floor
import Mathlib.Tactic.Linarith
import Mathlib.Tactic.Positivity
import Mathlib.Tactic.Ring
import Mathlib.Tactic.NormNum
import Mathlib.Tactic.FieldSimp

/-
  Rounding to the nearest double, on rational numbers. A double has 53 bits of mantissa and no
  digit below `2 ^ -1074`, so around `x` the doubles are the multiples of `quantum x`, a power of
  two; `nearest x` is the multiple that is closest to `x`, the even one of two (infinities apart).
  It is off by half a quantum at most (`abs_nearest_sub_le`). For a multiple of the smallest
  quantum that is a relative error (`abs_nearest_sub_le_of_multiple`): such a number is either
  large enough for 53 bits or needs no rounding.
-/
namespace ImplicitPlot.Number

/-! ## Whole numbers -/

/-- The nearest integer, a half going to the even neighbour. -/
def halfEven (x : ℚ) : ℤ :=
  if Int.fract x < 1 / 2 ∨ Int.fract x = 1 / 2 ∧ Even ⌊x⌋ then ⌊x⌋ else ⌊x⌋ + 1

theorem abs_halfEven_sub_le (x : ℚ) : |(halfEven x : ℚ) - x| ≤ 1 / 2 := by
  have hsplit := Int.floor_add_fract x
  have hnonneg := Int.fract_nonneg x
  have hlt := Int.fract_lt_one x
  rw [abs_le, halfEven]
  split
  · rename_i hlow
    have hhalf : Int.fract x ≤ 1 / 2 := by
      rcases hlow with h | ⟨h, -⟩
      · exact h.le
      · exact h.le
    constructor <;> linarith
  · rename_i hhigh
    have hhalf : 1 / 2 ≤ Int.fract x := by
      by_contra h
      exact hhigh (Or.inl (not_le.mp h))
    push_cast
    constructor <;> linarith

theorem halfEven_intCast (n : ℤ) : halfEven (n : ℚ) = n := by
  have hfract : Int.fract (n : ℚ) = 0 := Int.fract_intCast n
  rw [halfEven, if_pos (Or.inl (by rw [hfract]; norm_num)), Int.floor_intCast]

/-- Where a number lies between two integers decides which one is nearest. -/
theorem halfEven_add {n : ℤ} {t : ℚ} (h0 : 0 ≤ t) (h1 : t < 1) :
    halfEven (n + t) = if t < 1 / 2 ∨ t = 1 / 2 ∧ Even n then n else n + 1 := by
  have hfloor : ⌊(n : ℚ) + t⌋ = n := by
    rw [Int.floor_intCast_add, Int.floor_eq_zero_iff.mpr ⟨h0, h1⟩, add_zero]
  have hfract : Int.fract ((n : ℚ) + t) = t := by
    rw [Int.fract_intCast_add, Int.fract_eq_self.mpr ⟨h0, h1⟩]
  rw [halfEven, hfloor, hfract]

theorem halfEven_neg (x : ℚ) : halfEven (-x) = -halfEven x := by
  have hsplit := Int.floor_add_fract x
  have hnonneg := Int.fract_nonneg x
  have hlt := Int.fract_lt_one x
  rcases hnonneg.eq_or_lt with hzero | hpos
  · have hint : x = ⌊x⌋ := by linarith
    rw [hint, ← Int.cast_neg, halfEven_intCast, halfEven_intCast]
  · have hneg : -x = ((-⌊x⌋ - 1 : ℤ) : ℚ) + (1 - Int.fract x) := by
      push_cast
      linarith
    rw [hneg, halfEven_add (by linarith) (by linarith), halfEven]
    rcases lt_trichotomy (Int.fract x) (1 / 2) with hlow | hhalf | hhigh
    · rw [if_neg (by rintro (h | ⟨h, -⟩) <;> linarith), if_pos (Or.inl hlow)]
      ring
    · have heven : Even (-⌊x⌋ - 1) ↔ ¬Even ⌊x⌋ := by rw [Int.even_sub_one, even_neg]
      have hrest : (1 : ℚ) - 1 / 2 = 1 / 2 := by norm_num
      rw [hhalf, hrest]
      simp only [lt_irrefl, true_and, false_or, heven]
      by_cases hx : Even ⌊x⌋
      · rw [if_neg (not_not.mpr hx), if_pos hx]
        ring
      · rw [if_pos hx, if_neg hx]
        ring
    · rw [if_pos (Or.inl (by linarith)), if_neg (by rintro (h | ⟨h, -⟩) <;> linarith)]
      ring

/-! ## Doubles -/

/-- The exponent of the last bit of a double around `x`. -/
def quantumExponent (x : ℚ) : ℤ := max (Int.log 2 |x| - 52) (-1074)

/-- The distance of doubles around `x`. -/
def quantum (x : ℚ) : ℚ := 2 ^ quantumExponent x

/-- The nearest double, as if there were no largest one. -/
def nearest (x : ℚ) : ℚ := halfEven (x / quantum x) * quantum x

theorem quantum_pos (x : ℚ) : 0 < quantum x := zpow_pos (by norm_num) _

theorem quantum_neg (x : ℚ) : quantum (-x) = quantum x := by
  rw [quantum, quantum, quantumExponent, quantumExponent, abs_neg]

theorem nearest_neg (x : ℚ) : nearest (-x) = -nearest x := by
  rw [nearest, nearest, quantum_neg, neg_div, halfEven_neg]
  push_cast
  ring

theorem abs_nearest_sub_le (x : ℚ) : |nearest x - x| ≤ quantum x / 2 := by
  have hq := quantum_pos x
  have hx : nearest x - x = (halfEven (x / quantum x) - x / quantum x) * quantum x := by
    rw [nearest]
    field_simp
  rw [hx, abs_mul, abs_of_pos hq]
  have herror := abs_halfEven_sub_le (x / quantum x)
  have hscaled := mul_le_mul_of_nonneg_right herror hq.le
  linarith

/-- What is a multiple of its own quantum is a double. -/
theorem nearest_of_multiple {x : ℚ} {k : ℤ} (h : x = k * quantum x) : nearest x = x := by
  have hq := (quantum_pos x).ne'
  have hk : x / quantum x = k := by
    rw [div_eq_iff hq]
    exact h
  rw [nearest, hk, halfEven_intCast, ← h]

/-- The last of 53 bits is small against the number. -/
theorem quantum_le_of_normal {x : ℚ} (hx : x ≠ 0) (h : -1074 ≤ Int.log 2 |x| - 52) :
    quantum x ≤ |x| / 2 ^ 52 := by
  have hpos : 0 < |x| := abs_pos.mpr hx
  have hlog : ((2 : ℕ) : ℚ) ^ Int.log 2 |x| ≤ |x| := Int.zpow_log_le_self (by norm_num) hpos
  rw [quantum, quantumExponent, max_eq_left h, zpow_sub₀ (by norm_num)]
  exact div_le_div_of_nonneg_right (by exact_mod_cast hlog) (by positivity)

/-- A multiple of the smallest quantum is rounded by a part of itself. -/
theorem abs_nearest_sub_le_of_multiple {x : ℚ} {k : ℤ} (h : x = k * 2 ^ (-1074 : ℤ)) :
    |nearest x - x| ≤ |x| / 2 ^ 53 := by
  by_cases hnormal : -1074 ≤ Int.log 2 |x| - 52
  · by_cases hx : x = 0
    · have hzero : x = (0 : ℤ) * quantum x := by simpa using hx
      rw [nearest_of_multiple hzero, sub_self, abs_zero]
      positivity
    · have herror := abs_nearest_sub_le x
      have hquantum := quantum_le_of_normal hx hnormal
      calc |nearest x - x| ≤ quantum x / 2 := herror
        _ ≤ |x| / 2 ^ 52 / 2 := by linarith
        _ = |x| / 2 ^ 53 := by ring
  · have hsmall : quantum x = 2 ^ (-1074 : ℤ) := by
      rw [quantum, quantumExponent, max_eq_right (by omega)]
    rw [nearest_of_multiple (k := k) (by rw [hsmall]; exact h), sub_self, abs_zero]
    positivity

end ImplicitPlot.Number

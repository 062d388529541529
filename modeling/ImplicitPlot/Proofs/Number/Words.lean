import ImplicitPlot.Proofs.Number.Arithmetic

/-
  Doubles against zero, and as whole numbers. Comparing a finite double with zero compares its
  value (`ge_zero_iff`). Rounded to an integer it moves by a half at most
  (`Exact.abs_round_sub_le`), so as a word it stays between two integers if it is between them
  before, give or take a half (`signedWord_round_mem`). `Exact.floor` and `Exact.ceil` are the
  floor and the ceiling of the value.
-/
namespace ImplicitPlot.Number

open Float.Model (UnpackedFloat)
open Float.Model.UnpackedFloat

theorem ge_zero_iff {x : Float} {v : ℚ} (h : value? x = some v) : x ≥ 0 ↔ 0 ≤ v := by
  have hle : x ≥ 0 ↔ (UnpackedFloat.le (.zero .positive) x.toModel.unpack) = true := by
    show decide ((0 : Float).toModel ≤ x.toModel) = true ↔ _
    rw [decide_eq_true_eq]
    exact Iff.rfl
  rw [hle]
  obtain ⟨s, hx, rfl⟩ | ⟨s, m, e, hm, hx, -, -, rfl⟩ := unpack_of_value? h
  · rw [hx]
    exact iff_of_true rfl (le_refl 0)
  · have hpos := mantissa_pos hm e
    rw [hx]
    cases s with
    | negative =>
      refine iff_of_false Bool.false_ne_true ?_
      rw [factor_negative]
      linarith
    | positive =>
      refine iff_of_true rfl ?_
      rw [factor_positive]
      linarith

/-- Rounding to an integer moves a number by a half at most. -/
theorem Exact.abs_round_sub_le (v : Exact) : |(v.round : ℚ) - v.value| ≤ 1 / 2 := by
  have hden : (0 : ℚ) < v.den := by exact_mod_cast v.den_pos
  obtain ⟨k, hk⟩ : ∃ k, (2 * v.num + v.den) / (2 * v.den) = k := ⟨_, rfl⟩
  have hlow : k * (2 * v.den) ≤ 2 * v.num + v.den := hk ▸ Nat.div_mul_le_self _ _
  have hhigh : 2 * v.num + v.den < (k + 1) * (2 * v.den) :=
    Nat.lt_mul_of_div_lt (by omega) (by have := v.den_pos; omega)
  have hmagnitude : |(k : ℚ) - v.num / v.den| ≤ 1 / 2 := by
    have hlow' : (k : ℚ) * (2 * v.den) ≤ 2 * v.num + v.den := by exact_mod_cast hlow
    have hhigh' : (2 * v.num + v.den : ℚ) < (k + 1) * (2 * v.den) := by exact_mod_cast hhigh
    rw [abs_le, neg_le_sub_iff_le_add, sub_le_iff_le_add, div_le_iff₀ hden, ← sub_le_iff_le_add',
      le_div_iff₀ hden]
    constructor <;> linarith
  have hround : v.round = if v.negative then -(k : ℤ) else k := by
    rw [← hk]
    rfl
  rw [hround, value, signedNum]
  cases v.negative with
  | true =>
    have hflip : ((-(k : ℤ) : ℤ) : ℚ) - ((-(v.num : ℤ) : ℤ) : ℚ) / v.den =
        -((k : ℚ) - v.num / v.den) := by
      push_cast
      ring
    simp only [if_true]
    rw [hflip, abs_neg]
    exact hmagnitude
  | false => simpa using hmagnitude

/-- The rounding of a double with a value is the rounding of its exact value. -/
theorem signedWord_of_value? {x : Float} {v : ℚ} (h : value? x = some v) (bits : ℕ)
    (rounding : Exact → ℤ) : ∃ e : Exact, e.value = v ∧ signedWord bits rounding x =
      saturate (-(twoTo (bits - 1))) (twoTo (bits - 1) - 1) (rounding e) := by
  rw [value?, Option.map_eq_some_iff] at h
  obtain ⟨e, he, hv⟩ := h
  refine ⟨e, hv, ?_⟩
  rw [signedWord, he]

/-- What lies between zero and a word, give or take a half, is rounded to an integer between
them. -/
theorem signedWord_round_mem {x : Float} {v : ℚ} (h : value? x = some v) {n : ℤ}
    (hn : n < 2 ^ 31) (hlow : -1 / 2 < v) (hhigh : v < n + 1 / 2) :
    0 ≤ signedWord 32 Exact.round x ∧ signedWord 32 Exact.round x ≤ n := by
  obtain ⟨e, rfl, hword⟩ := signedWord_of_value? h 32 Exact.round
  have hround := abs_le.mp e.abs_round_sub_le
  have hlow' : (-1 : ℚ) < e.round := by linarith
  have hhigh' : (e.round : ℚ) < n + 1 := by linarith
  have hlow'' : -1 < e.round := by exact_mod_cast hlow'
  have hhigh'' : e.round < n + 1 := by exact_mod_cast hhigh'
  have htwo : twoTo (32 - 1) = 2 ^ 31 := rfl
  rw [hword, htwo, saturate_of_mem (by push_cast; omega) (by push_cast; omega)]
  omega

/-- The infinity above all doubles becomes the largest word. -/
theorem signedWord_infinity {x : Float} (h : x.toModel.unpack = .infinity .positive) (bits : ℕ)
    (rounding : Exact → ℤ) : signedWord bits rounding x = twoTo (bits - 1) - 1 := by
  have hexact : Exact.ofFloat? x = none := by rw [Exact.ofFloat?, h]
  have hnumber : x.isNaN = false := by
    show x.toModel.unpack.isNaN = false
    rw [h]
    rfl
  have hpositive : ¬x < 0 := by
    show ¬decide (x.toModel < (0 : Float).toModel) = true
    rw [decide_eq_true_eq]
    show ¬UnpackedFloat.lt x.toModel.unpack (.zero .positive) = true
    rw [h]
    exact Bool.false_ne_true
  rw [signedWord, hexact]
  simp only [hnumber, if_neg hpositive]
  rfl

theorem signedWord_notANumber {x : Float} (h : x.toModel.unpack = .notANumber) (bits : ℕ)
    (rounding : Exact → ℤ) : signedWord bits rounding x = 0 := by
  have hexact : Exact.ofFloat? x = none := by rw [Exact.ofFloat?, h]
  have hnumber : x.isNaN = true := by
    show x.toModel.unpack.isNaN = true
    rw [h]
    rfl
  rw [signedWord, hexact]
  simp only [hnumber]
  rfl

/-! ## Floors and ceilings -/

theorem Exact.floor_eq (v : Exact) : v.floor = ⌊v.value⌋ :=
  (Rat.floor_intCast_div_natCast v.signedNum v.den).symm

theorem Exact.ceil_eq (v : Exact) : v.ceil = ⌈v.value⌉ := by
  have hneg : -v.value = ((-v.signedNum : ℤ) : ℚ) / v.den := by
    rw [value]
    push_cast
    ring
  rw [ceil, ← Rat.floor_intCast_div_natCast, ← hneg, Int.floor_neg, neg_neg]

/-- A word has its width. -/
theorem signedWord_mem (bits : ℕ) (rounding : Exact → ℤ) (x : Float) :
    -(twoTo (bits - 1) : ℤ) ≤ signedWord bits rounding x ∧
      signedWord bits rounding x ≤ (twoTo (bits - 1) : ℤ) - 1 := by
  have hpos : (0 : ℤ) < twoTo (bits - 1) := by exact_mod_cast twoTo_pos _
  rw [signedWord]
  split
  · exact ⟨le_saturate _, saturate_le (by omega) _⟩
  · split
    · omega
    · split <;> omega

/-- The word of a value up to `2 ^ 53` is its floor or its ceiling. -/
theorem signedWord_of_abs_le {x : Float} {q : ℚ} (hx : value? x = some q) (hq : |q| ≤ 2 ^ 53) :
    signedWord 64 Exact.ceil x = ⌈q⌉ ∧ signedWord 64 Exact.floor x = ⌊q⌋ := by
  have hsize : ((twoTo (64 - 1) : ℕ) : ℤ) = 2 ^ 63 := rfl
  obtain ⟨hlow, hhigh⟩ := abs_le.mp hq
  have hceil : -2 ^ 53 ≤ ⌈q⌉ ∧ ⌈q⌉ ≤ 2 ^ 53 :=
    ⟨Int.le_ceil_iff.mpr (by push_cast; linarith), Int.ceil_le.mpr (by push_cast; linarith)⟩
  have hfloor : -2 ^ 53 ≤ ⌊q⌋ ∧ ⌊q⌋ ≤ 2 ^ 53 :=
    ⟨Int.le_floor.mpr (by push_cast; linarith), Int.floor_le_iff.mpr (by push_cast; linarith)⟩
  constructor
  · obtain ⟨e, rfl, hword⟩ := signedWord_of_value? hx 64 Exact.ceil
    rw [hword, hsize, Exact.ceil_eq, saturate_of_mem (by omega) (by omega)]
  · obtain ⟨e, rfl, hword⟩ := signedWord_of_value? hx 64 Exact.floor
    rw [hword, hsize, Exact.floor_eq, saturate_of_mem (by omega) (by omega)]

end ImplicitPlot.Number

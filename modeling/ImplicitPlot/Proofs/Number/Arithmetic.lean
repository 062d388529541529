import ImplicitPlot.Proofs.Number.Packing

/-
  The arithmetic of doubles on their values. The value of a finite double is a rational number
  (`value?`). A product, difference or quotient of finite doubles is the double that is nearest to
  the exact result, or an infinity of its sign where that would be `2 ^ 1024` or more
  (`mul_rounds`, `sub_rounds`, `div_rounds`).
-/
namespace ImplicitPlot.Number

open Float.Model (Format UnpackedFloat)
open Float.Model.UnpackedFloat

/-! ## Values -/

/-- The number that is written as a mantissa and an exponent. -/
def Exact.value (v : Exact) : ℚ := v.signedNum / v.den

/-- The value of a double; none for the infinities and for what is no number. -/
def value? (x : Float) : Option ℚ := (Exact.ofFloat? x).map Exact.value

theorem value?_of_exact {x : Float} {v : Exact} (h : Exact.ofFloat? x = some v) :
    value? x = some v.value := by
  rw [value?, h, Option.map_some]

/-- A sign as a factor. -/
def factor (s : Sign) : ℚ := s.apply 1

theorem factor_negative : factor .negative = -1 := by norm_num [factor, Sign.apply]

theorem factor_positive : factor .positive = 1 := by norm_num [factor, Sign.apply]

theorem factor_mul (s t : Sign) : factor (s * t) = factor s * factor t := by
  have happly : (s * t).apply 1 = s.apply 1 * t.apply 1 := by cases s <;> cases t <;> rfl
  rw [factor, happly, Int.cast_mul]
  rfl

theorem factor_neg (s : Sign) : factor (-s) = -factor s := by
  have happly : (-s).apply 1 = -s.apply 1 := by cases s <;> rfl
  rw [factor, happly, Int.cast_neg]
  rfl

theorem factor_mul_self (s : Sign) : factor s * factor s = 1 := by
  cases s with
  | negative => norm_num [factor_negative]
  | positive => norm_num [factor_positive]

theorem factor_div (s t : Sign) : factor (s / t) = factor s / factor t := by
  have hmul : s / t = s * t := by cases s <;> cases t <;> rfl
  have hne : factor t ≠ 0 := fun h => by simpa [h] using factor_mul_self t
  rw [hmul, factor_mul, eq_div_iff hne, mul_assoc, factor_mul_self, mul_one]

theorem cast_apply (s : Sign) (n : ℤ) : ((s.apply n : ℤ) : ℚ) = factor s * n := by
  cases s with
  | negative => simp [Sign.apply, factor_negative]
  | positive => simp [Sign.apply, factor_positive]

theorem Exact.value_eq (v : Exact) :
    v.value = (if v.negative then -1 else 1) * v.mantissa * 2 ^ v.exponent := by
  obtain ⟨negative, m, e⟩ := v
  have htwo : (2 : ℚ) ^ e = 2 ^ e.toNat / 2 ^ (-e).toNat := by
    rw [← zpow_natCast, ← zpow_natCast, ← zpow_sub₀ (by norm_num)]
    congr 1
    omega
  cases negative <;>
    simp only [value, signedNum, num, den, twoTo, Nat.pow_eq, htwo, if_true, if_false,
      Bool.false_eq_true] <;>
    push_cast <;> ring

theorem value?_finite {x : Float} {s : Sign} {m : ℕ} {e : ℤ} {hm : 0 < m}
    (h : x.toModel.unpack = .finite s m e hm) : value? x = some (factor s * m * 2 ^ e) := by
  rw [value?, Exact.ofFloat?, h, Option.map_some, Exact.value_eq]
  cases s with
  | negative => rw [factor_negative]; rfl
  | positive => rw [factor_positive]; rfl

theorem value?_zero {x : Float} {s : Sign} (h : x.toModel.unpack = .zero s) :
    value? x = some 0 := by
  rw [value?, Exact.ofFloat?, h, Option.map_some, Exact.value_eq]
  simp

theorem value?_infinity {x : Float} {s : Sign} (h : x.toModel.unpack = .infinity s) :
    value? x = none := by
  rw [value?, Exact.ofFloat?, h]
  rfl

theorem value?_notANumber {x : Float} (h : x.toModel.unpack = .notANumber) : value? x = none := by
  rw [value?, Exact.ofFloat?, h]
  rfl

/-- A double with a value is a zero or has a canonical mantissa. -/
theorem unpack_of_value? {x : Float} {v : ℚ} (h : value? x = some v) :
    (∃ s, x.toModel.unpack = .zero s ∧ v = 0) ∨
      ∃ s m e hm, x.toModel.unpack = .finite s m e hm ∧ Canonical m e ∧ e ≤ 971 ∧
        v = factor s * m * 2 ^ e := by
  cases hx : x.toModel.unpack with
  | infinity s => rw [value?_infinity hx] at h; cases h
  | notANumber => rw [value?_notANumber hx] at h; cases h
  | zero s =>
    rw [value?_zero hx] at h
    exact Or.inl ⟨s, rfl, (Option.some.inj h).symm⟩
  | finite s m e hm =>
    rw [value?_finite hx] at h
    obtain ⟨hcanonical, he⟩ := canonical_of_unpack hx
    exact Or.inr ⟨s, m, e, hm, rfl, hcanonical, he, (Option.some.inj h).symm⟩

/-- A number with an exponent is a multiple of every smaller power of two. -/
theorem exists_eq_mul_zpow (s : Sign) (m : ℕ) {e f : ℤ} (h : f ≤ e) :
    ∃ k : ℤ, factor s * m * 2 ^ e = k * 2 ^ f := by
  refine ⟨s.apply (m * 2 ^ (e - f).toNat), ?_⟩
  have hplace : e = (e - f).toNat + f := by omega
  rw [cast_apply]
  push_cast
  rw [mul_assoc, mul_assoc, mul_assoc, ← zpow_natCast (2 : ℚ), ← zpow_add₀ (by norm_num), ← hplace]

/-- The value of a double is a multiple of the smallest one. -/
theorem exists_multiple {x : Float} {v : ℚ} (h : value? x = some v) :
    ∃ k : ℤ, v = k * 2 ^ (-1074 : ℤ) := by
  obtain ⟨s, -, rfl⟩ | ⟨s, m, e, hm, -, hcanonical, -, rfl⟩ := unpack_of_value? h
  · exact ⟨0, by simp⟩
  · exact exists_eq_mul_zpow s m hcanonical.le_exponent

theorem isFinite_iff {x : Float} : x.isFinite = true ↔ ∃ v, value? x = some v := by
  have hfinite : x.isFinite = x.toModel.unpack.isFinite := rfl
  rw [hfinite]
  cases hx : x.toModel.unpack with
  | infinity s => simp [value?_infinity hx, UnpackedFloat.isFinite]
  | notANumber => simp [value?_notANumber hx, UnpackedFloat.isFinite]
  | zero s => simp [value?_zero hx, UnpackedFloat.isFinite]
  | finite s m e hm => simp [value?_finite hx, UnpackedFloat.isFinite]

/-! ## Rounding -/

/-- The first power of two that is too large for a double. -/
def tooLarge : ℚ := 2 ^ 1024

/-- The sign of a number that is not zero. -/
def signOf (v : ℚ) : Sign := if v < 0 then .negative else .positive

/-- A double is the one nearest to a number, or infinite where that is too large. -/
def Rounds (v : ℚ) (x : Float) : Prop :=
  |nearest v| < tooLarge ∧ value? x = some (nearest v) ∨
    tooLarge ≤ |nearest v| ∧ x.toModel.unpack = .infinity (signOf v)

theorem signOf_factor_mul (s : Sign) {v : ℚ} (hv : 0 < v) : signOf (factor s * v) = s := by
  cases s with
  | negative => rw [signOf, factor_negative, if_pos (by linarith)]
  | positive => rw [signOf, factor_positive, if_neg (by linarith)]

theorem nearest_factor_mul (s : Sign) (v : ℚ) : nearest (factor s * v) = factor s * nearest v := by
  cases s with
  | negative => simp only [factor_negative, neg_one_mul, nearest_neg]
  | positive => simp only [factor_positive, one_mul]

theorem abs_factor_mul (s : Sign) (v : ℚ) : |factor s * v| = |v| := by
  cases s with
  | negative => simp only [factor_negative, neg_one_mul, abs_neg]
  | positive => simp only [factor_positive, one_mul]

theorem tooLarge_pos : 0 < tooLarge := pow_pos (by norm_num) 1024

theorem nearest_zero : nearest 0 = 0 :=
  nearest_of_multiple (k := 0) (by norm_num)

/-- A mantissa of at most 53 bits needs no rounding. -/
theorem nearest_of_lt {m : ℕ} (hm : m < 2 ^ 53) {e : ℤ} (he : -1074 ≤ e) :
    nearest (m * 2 ^ e) = m * 2 ^ e := by
  by_cases hzero : m = 0
  · rw [hzero]
    simpa using nearest_zero
  · have hlog : m.log2 < 53 := (Nat.log2_lt hzero).mpr hm
    have hplace := quantumExponent_eq hzero e
    have hsplit : e = (e - quantumExponent (m * 2 ^ e)).toNat + quantumExponent (m * 2 ^ e) := by
      omega
    refine nearest_of_multiple (k := m * 2 ^ (e - quantumExponent (m * 2 ^ e)).toNat) ?_
    rw [quantum]
    push_cast
    rw [mul_assoc, ← zpow_natCast (2 : ℚ), ← zpow_add₀ (by norm_num), ← hsplit]

/-- A canonical number is not too large if its exponent fits a word. -/
theorem Canonical.lt_tooLarge_iff {m : ℕ} {e : ℤ} (h : Canonical m e) :
    (m : ℚ) * 2 ^ e < tooLarge ↔ e ≤ 971 := by
  have hunit : (0 : ℚ) < 2 ^ e := zpow_pos (by norm_num) e
  constructor
  · intro hlt
    by_contra htop
    have hm : (2 : ℚ) ^ 52 ≤ m := by
      have := h.normal.resolve_right (by omega)
      exact_mod_cast this
    have hle : tooLarge ≤ 2 ^ 52 * 2 ^ e := by
      rw [tooLarge, ← zpow_natCast, ← zpow_natCast, ← zpow_add₀ (by norm_num)]
      exact zpow_le_zpow_right₀ (by norm_num) (by push_cast; omega)
    have := mul_le_mul_of_nonneg_right hm hunit.le
    linarith
  · intro htop
    have hm : (m : ℚ) < 2 ^ 53 := by exact_mod_cast h.lt
    have hle : (2 : ℚ) ^ 53 * 2 ^ e ≤ tooLarge := by
      rw [tooLarge, ← zpow_natCast, ← zpow_natCast, ← zpow_add₀ (by norm_num)]
      exact zpow_le_zpow_right₀ (by norm_num) (by push_cast; omega)
    have := mul_lt_mul_of_pos_right hm hunit
    linarith

/-- What is rounded and then packed is a double. -/
theorem RoundedTo.rounds {s : Sign} {v : ℚ} {u : UnpackedFloat} {x : Float}
    (h : RoundedTo s v u) (hv : 0 < v) (hx : x.toModel = .pack u) : Rounds (factor s * v) x := by
  have hunpack : x.toModel.unpack = unpack .binary64 (pack .binary64 u) := by rw [hx]; rfl
  rw [Rounds, nearest_factor_mul, abs_factor_mul, signOf_factor_mul s hv]
  obtain ⟨hzero, rfl⟩ | ⟨m, e, hm, rfl, hcanonical, hvalue⟩ := h
  · have hx0 : x.toModel.unpack = .zero s := hunpack.trans (unpack_zero s)
    rw [hzero, mul_zero, value?_zero hx0]
    exact Or.inl ⟨abs_zero.trans_lt tooLarge_pos, rfl⟩
  · have hpos := mantissa_pos hm e
    rw [unpack_pack_finite s hm hcanonical] at hunpack
    rw [← hvalue, abs_of_pos hpos]
    by_cases htop : e ≤ 971
    · rw [if_pos htop] at hunpack
      rw [value?_finite hunpack, mul_assoc]
      exact Or.inl ⟨hcanonical.lt_tooLarge_iff.mpr htop, rfl⟩
    · rw [if_neg htop] at hunpack
      exact Or.inr ⟨not_lt.mp fun h => htop (hcanonical.lt_tooLarge_iff.mp h), hunpack⟩

theorem rounds_zero {x : Float} {s : Sign} (h : x.toModel = .pack (.zero s)) : Rounds 0 x := by
  have hunpack : x.toModel.unpack = .zero s := by rw [h]; exact unpack_zero s
  rw [Rounds, nearest_zero, value?_zero hunpack]
  exact Or.inl ⟨abs_zero.trans_lt tooLarge_pos, rfl⟩

theorem roundedTo_finite (s : Sign) {m : ℕ} {e : ℤ} (hm : 0 < m) (h : Canonical m e) :
    RoundedTo s (m * 2 ^ e) (.finite s m e hm) :=
  Or.inr ⟨m, e, hm, rfl, h, (nearest_of_lt h.lt h.le_exponent).symm⟩

/-! ## Operations -/

/-- A product of canonical mantissas has at least the bits of a double. -/
theorem add_le_quantumExponent_mul {m n : ℕ} {e f : ℤ} (hm : 0 < m) (hn : 0 < n)
    (hme : Canonical m e) (hnf : Canonical n f) :
    e + f ≤ quantumExponent ((m * n : ℕ) * 2 ^ (e + f)) := by
  have hmn : 0 < m * n := Nat.mul_pos hm hn
  have hme' := hme.normal
  have hnf' := hnf.normal
  rw [quantumExponent_eq hmn.ne']
  by_cases hlarge : 2 ^ 52 ≤ m * n
  · have hlog : 52 ≤ (m * n).log2 := (Nat.le_log2 hmn.ne').mpr hlarge
    omega
  · have hm' : ¬2 ^ 52 ≤ m := fun h => hlarge (h.trans (Nat.le_mul_of_pos_right m hn))
    have hn' : ¬2 ^ 52 ≤ n := fun h => hlarge (h.trans (Nat.le_mul_of_pos_left n hm))
    omega

theorem mul_rounds {a b : Float} {u w : ℚ} (ha : value? a = some u) (hb : value? b = some w) :
    Rounds (u * w) (a * b) := by
  have hmodel : (a * b).toModel =
      .pack (UnpackedFloat.mul .binary64 a.toModel.unpack b.toModel.unpack) := rfl
  obtain ⟨s, hs, rfl⟩ | ⟨s, m, e, hm, hs, hme, -, rfl⟩ := unpack_of_value? ha
  · obtain ⟨t, ht, rfl⟩ | ⟨t, n, f, hn, ht, -, -, rfl⟩ := unpack_of_value? hb
    · rw [hs, ht] at hmodel
      rw [zero_mul]
      exact rounds_zero hmodel
    · rw [hs, ht] at hmodel
      rw [zero_mul]
      exact rounds_zero hmodel
  · obtain ⟨t, ht, rfl⟩ | ⟨t, n, f, hn, ht, hnf, -, rfl⟩ := unpack_of_value? hb
    · rw [hs, ht] at hmodel
      rw [mul_zero]
      exact rounds_zero hmodel
    · rw [hs, ht] at hmodel
      have hmn : 0 < m * n := Nat.mul_pos hm hn
      have hstands : Stands (.ofMantissaAndAccuracy (m * n) .exact)
          ((m * n : ℕ) * 2 ^ (e + f) / 2 ^ (e + f)) := by
        rw [mul_div_cancel_right₀ _ (zpow_pos (by norm_num) _).ne']
        exact Stands.exact _
      have hplace := add_le_quantumExponent_mul hm hn hme hnf
      have hproduct : factor s * m * 2 ^ e * (factor t * n * 2 ^ f) =
          factor (s * t) * ((m * n : ℕ) * 2 ^ (e + f)) := by
        rw [factor_mul, zpow_add₀ (by norm_num)]
        push_cast
        ring
      rw [hproduct]
      exact (roundWithAccuracy_spec (s * t) (mantissa_pos hmn _) hstands hplace).rounds
        (mantissa_pos hmn _) hmodel

theorem normalize_rounds {x : Float} {n : ℤ} {e : ℤ} {s : Sign}
    (h : x.toModel = .pack (UnpackedFloat.normalize .binary64 n e s)) : Rounds (n * 2 ^ e) x := by
  rw [UnpackedFloat.normalize] at h
  rcases lt_trichotomy n 0 with hn | rfl | hn
  · rw [Int.compare_eq_lt.mpr hn] at h
    have hpos : 0 < (-n).toNat := by omega
    have hvalue : (n * 2 ^ e : ℚ) = factor .negative * ((-n).toNat * 2 ^ e) := by
      have hcast : (((-n).toNat : ℤ) : ℚ) = -n := by
        rw [Int.toNat_of_nonneg (by omega)]
        push_cast
        ring
      rw [factor_negative, ← Int.cast_natCast (-n).toNat, hcast]
      ring
    rw [hvalue]
    exact (round_spec .negative hpos e).rounds (mantissa_pos hpos e) h
  · rw [Int.cast_zero, zero_mul]
    exact rounds_zero h
  · rw [Int.compare_eq_gt.mpr hn] at h
    have hpos : 0 < n.toNat := by omega
    have hvalue : (n * 2 ^ e : ℚ) = factor .positive * (n.toNat * 2 ^ e) := by
      have hcast : ((n.toNat : ℤ) : ℚ) = n := by rw [Int.toNat_of_nonneg hn.le]
      rw [factor_positive, ← Int.cast_natCast n.toNat, hcast, one_mul]
    rw [hvalue]
    exact (round_spec .positive hpos e).rounds (mantissa_pos hpos e) h

/-- More digits at a lower place make up the same number. -/
theorem shiftLeft_mul {m : ℕ} {e e' : ℤ} (h : e' ≤ e) :
    ((m <<< (e - e').toNat : ℕ) : ℚ) * 2 ^ e' = m * 2 ^ e := by
  have hplace : ((e - e').toNat : ℤ) + e' = e := by omega
  rw [Nat.shiftLeft_eq]
  push_cast
  rw [mul_assoc, ← zpow_natCast, ← zpow_add₀ (by norm_num), hplace]

theorem sub_rounds {a b : Float} {u w : ℚ} (ha : value? a = some u) (hb : value? b = some w) :
    Rounds (u - w) (a - b) := by
  have hmodel : (a - b).toModel =
      .pack (UnpackedFloat.sub .binary64 a.toModel.unpack b.toModel.unpack) := rfl
  obtain ⟨s, hs, rfl⟩ | ⟨s, m, e, hm, hs, hme, -, rfl⟩ := unpack_of_value? ha
  · obtain ⟨t, ht, rfl⟩ | ⟨t, n, f, hn, ht, hnf, -, rfl⟩ := unpack_of_value? hb
    · have hzero : ∃ r, UnpackedFloat.sub .binary64 (.zero s) (.zero t) = .zero r := by
        cases s <;> cases t <;> exact ⟨_, rfl⟩
      obtain ⟨r, hr⟩ := hzero
      rw [hs, ht, hr] at hmodel
      rw [sub_zero]
      exact rounds_zero hmodel
    · rw [hs, ht] at hmodel
      have hvalue : 0 - factor t * n * 2 ^ f = factor (-t) * (n * 2 ^ f) := by
        rw [factor_neg]
        ring
      rw [hvalue]
      exact (roundedTo_finite (-t) hn hnf).rounds (mantissa_pos hn f) hmodel
  · obtain ⟨t, ht, rfl⟩ | ⟨t, n, f, hn, ht, hnf, -, rfl⟩ := unpack_of_value? hb
    · rw [hs, ht] at hmodel
      rw [sub_zero, mul_assoc]
      exact (roundedTo_finite s hm hme).rounds (mantissa_pos hm e) hmodel
    · rw [hs, ht] at hmodel
      have hvalue : factor s * m * 2 ^ e - factor t * n * 2 ^ f =
          ((s.apply ((m <<< (e - min e f).toNat : ℕ) : ℤ) -
            t.apply ((n <<< (f - min e f).toNat : ℕ) : ℤ) : ℤ) : ℚ) * 2 ^ min e f := by
        have hfirst := shiftLeft_mul (m := m) (min_le_left e f)
        have hsecond := shiftLeft_mul (m := n) (min_le_right e f)
        rw [Int.cast_sub, cast_apply, cast_apply, Int.cast_natCast, Int.cast_natCast]
        linear_combination -factor s * hfirst + factor t * hsecond
      rw [hvalue]
      exact normalize_rounds hmodel

/-- A quotient of mantissas loses one bit at most. -/
theorem log2_sub_le_log_div {m n : ℕ} (hm : 0 < m) (hn : 0 < n) (e f : ℤ) :
    (m.log2 - n.log2 + e - f - 1 : ℤ) ≤ Int.log 2 (m * 2 ^ e / (n * 2 ^ f) : ℚ) := by
  have hpos : (0 : ℚ) < m * 2 ^ e / (n * 2 ^ f) := div_pos (mantissa_pos hm e) (mantissa_pos hn f)
  refine (Int.zpow_le_iff_le_log (by norm_num) hpos).mp ?_
  have hmlow : (2 : ℚ) ^ m.log2 ≤ m := by exact_mod_cast Nat.log2_self_le hm.ne'
  have hnhigh : (n : ℚ) ≤ 2 ^ (n.log2 + 1) := by exact_mod_cast Nat.lt_log2_self.le
  rw [le_div_iff₀ (mantissa_pos hn f)]
  calc ((2 : ℕ) : ℚ) ^ (m.log2 - n.log2 + e - f - 1 : ℤ) * (n * 2 ^ f)
      ≤ 2 ^ (m.log2 - n.log2 + e - f - 1 : ℤ) * (2 ^ (n.log2 + 1) * 2 ^ f) := by
        rw [Nat.cast_ofNat]
        gcongr
    _ = 2 ^ m.log2 * 2 ^ e := by
        rw [← zpow_natCast, ← zpow_natCast, ← zpow_add₀ (by norm_num),
          ← zpow_add₀ (by norm_num), ← zpow_add₀ (by norm_num)]
        congr 1
        push_cast
        ring
    _ ≤ m * 2 ^ e := by gcongr

/-- A quotient of mantissas stands with at least the bits of a double. -/
theorem divCore_spec {m n : ℕ} (hm : 0 < m) (hn : 0 < n) (e f : ℤ) :
    let core := divCore .binary64 m e n f
    Stands (.ofMantissaAndAccuracy core.1 core.2.2) (m * 2 ^ e / (n * 2 ^ f) / 2 ^ core.2.1) ∧
      core.2.1 ≤ quantumExponent (m * 2 ^ e / (n * 2 ^ f)) := by
  intro core
  have hplace : core.2.1 =
      min (e - f) (max ((m.log2 + 1 + e - (n.log2 + 1 + f) : ℤ) - 53) (-1074)) := rfl
  have hle : core.2.1 ≤ e - f := hplace ▸ min_le_left _ _
  have hn' : (0 : ℚ) < n := by exact_mod_cast hn
  have hpos : (0 : ℚ) < m * 2 ^ e / (n * 2 ^ f) := div_pos (mantissa_pos hm e) (mantissa_pos hn f)
  constructor
  · have hshifted : (m * 2 ^ e / (n * 2 ^ f) / 2 ^ core.2.1 : ℚ) =
        (m <<< (e - f - core.2.1).toNat : ℕ) / n := by
      have hshift := shiftLeft_mul (m := m) hle
      have hunit : (2 : ℚ) ^ core.2.1 ≠ 0 := (zpow_pos (by norm_num) _).ne'
      have hunit' : (2 : ℚ) ^ f ≠ 0 := (zpow_pos (by norm_num) _).ne'
      rw [zpow_sub₀ (by norm_num)] at hshift
      field_simp at hshift ⊢
      linarith
    rw [hshifted]
    exact Stands.quotient hn
  · have hlog := log2_sub_le_log_div hm hn e f
    rw [quantumExponent, abs_of_pos hpos, hplace]
    omega

theorem div_rounds {a b : Float} {u w : ℚ} (ha : value? a = some u) (hb : value? b = some w)
    (hw : w ≠ 0) : Rounds (u / w) (a / b) := by
  have hmodel : (a / b).toModel =
      .pack (UnpackedFloat.div .binary64 a.toModel.unpack b.toModel.unpack) := rfl
  obtain ⟨t, ht, rfl⟩ | ⟨t, n, f, hn, ht, -, -, rfl⟩ := unpack_of_value? hb
  · exact absurd rfl hw
  obtain ⟨s, hs, rfl⟩ | ⟨s, m, e, hm, hs, -, -, rfl⟩ := unpack_of_value? ha
  · rw [hs, ht] at hmodel
    rw [zero_div]
    exact rounds_zero hmodel
  · rw [hs, ht] at hmodel
    have hquotient : factor s * m * 2 ^ e / (factor t * n * 2 ^ f) =
        factor (s / t) * (m * 2 ^ e / (n * 2 ^ f)) := by
      rw [factor_div, mul_assoc, mul_assoc, mul_div_mul_comm]
    have hpos := div_pos (mantissa_pos hm e) (mantissa_pos hn f)
    obtain ⟨hstands, hplace⟩ := divCore_spec hm hn e f
    rw [hquotient]
    exact (roundWithAccuracy_spec (s / t) hpos hstands hplace).rounds hpos hmodel

/-! ## Whole numbers -/

theorem Rounds.value?_eq {v : ℚ} {x : Float} (h : Rounds v x) (hv : |nearest v| < tooLarge) :
    value? x = some (nearest v) := by
  obtain ⟨-, hx⟩ | ⟨htop, -⟩ := h
  · exact hx
  · exact absurd hv (not_lt.mpr htop)

theorem lt_tooLarge {v : ℚ} (h : v ≤ 2 ^ 53) : v < tooLarge :=
  h.trans_lt (pow_lt_pow_right₀ (by norm_num) (by norm_num))

/-- A whole number of at most 53 bits needs no rounding. -/
theorem nearest_natCast {n : ℕ} (hn : n < 2 ^ 53) : nearest n = n := by
  have := nearest_of_lt hn (e := 0) (by norm_num)
  rwa [zpow_zero, mul_one] at this

theorem abs_nearest_natCast_lt {n : ℕ} (hn : n < 2 ^ 53) : |nearest n| < tooLarge := by
  rw [nearest_natCast hn, abs_of_nonneg (Nat.cast_nonneg n)]
  exact lt_tooLarge (by exact_mod_cast hn.le)

theorem value?_toFloat {n : ℕ} (hn : n < 2 ^ 53) : value? n.toUInt64.toFloat = some (n : ℚ) := by
  have hword : n.toUInt64.toNat = n := by
    rw [Nat.toUInt64, UInt64.toNat_ofNat']
    exact Nat.mod_eq_of_lt (by omega)
  have hmodel : n.toUInt64.toFloat.toModel =
      .pack (UnpackedFloat.normalize .binary64 (n.toUInt64.toNat : ℤ) 0 .positive) := rfl
  have hrounds := normalize_rounds hmodel
  rw [hword, zpow_zero, mul_one, Int.cast_natCast] at hrounds
  rw [hrounds.value?_eq (abs_nearest_natCast_lt hn), nearest_natCast hn]

/-- A whole number of at most 53 bits is a double. -/
theorem value?_ofNat {n : ℕ} (hn : n < 2 ^ 53) : value? (Float.ofNat n) = some (n : ℚ) := by
  have hone : value? (Float.ofBits 0x3FF0000000000000) = some 1 := by
    have hunpack : (Float.ofBits 0x3FF0000000000000).toModel.unpack =
        .finite .positive (2 ^ 52) (-52) (by norm_num) := rfl
    rw [value?_finite hunpack, factor_positive]
    norm_num
  have hfast : Float.ofNat n = n.toUInt64.toFloat * Float.ofBits 0x3FF0000000000000 :=
    dif_pos ⟨hn, by norm_num⟩
  have hrounds := mul_rounds (value?_toFloat hn) hone
  rw [mul_one] at hrounds
  rw [hfast, hrounds.value?_eq (abs_nearest_natCast_lt hn), nearest_natCast hn]

end ImplicitPlot.Number

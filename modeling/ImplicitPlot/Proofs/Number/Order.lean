import ImplicitPlot.Proofs.Number.Words

/-
  The order of doubles. Rounding to the nearest double keeps the order (`nearest_mono`). Comparing
  finite doubles compares their values (`le_iff`, `lt_iff`), and the doubles nearest to two numbers
  are ordered as these are, the infinities among them (`Rounds.le`). Different doubles are at least
  half a quantum apart (`quantum_le_of_ne`).
-/
namespace ImplicitPlot.Number

open Float.Model (UnpackedFloat)
open Float.Model.UnpackedFloat

/-! ## Rounding keeps the order -/

theorem halfEven_mono {x y : ℚ} (h : x ≤ y) : halfEven x ≤ halfEven y := by
  rcases (Int.floor_mono h).eq_or_lt with hfloor | hfloor
  · have hx := Int.floor_add_fract x
    have hy := Int.floor_add_fract y
    have hfract : Int.fract x ≤ Int.fract y := by
      rw [hfloor] at hx
      linarith
    rw [halfEven, halfEven, hfloor]
    split
    · split <;> omega
    · rename_i hhigh
      rw [if_neg]
      rintro (hlow | ⟨hhalf, heven⟩)
      · exact hhigh (Or.inl (hfract.trans_lt hlow))
      · rcases (hhalf ▸ hfract).lt_or_eq with hlow | hsame
        · exact hhigh (Or.inl hlow)
        · exact hhigh (Or.inr ⟨hsame, heven⟩)
  · have hlow : halfEven x ≤ ⌊x⌋ + 1 := by
      rw [halfEven]
      split <;> omega
    have hhigh : ⌊y⌋ ≤ halfEven y := by
      rw [halfEven]
      split <;> omega
    omega

/-- Rounding does not pass a multiple of the quantum. -/
theorem nearest_le_of_multiple {x : ℚ} {k : ℤ} (h : x ≤ k * quantum x) :
    nearest x ≤ k * quantum x := by
  have hq := quantum_pos x
  have hk := halfEven_mono ((div_le_iff₀ hq).mpr h)
  rw [halfEven_intCast] at hk
  exact mul_le_mul_of_nonneg_right (by exact_mod_cast hk) hq.le

theorem le_nearest_of_multiple {x : ℚ} {k : ℤ} (h : k * quantum x ≤ x) :
    k * quantum x ≤ nearest x := by
  have hq := quantum_pos x
  have hk := halfEven_mono ((le_div_iff₀ hq).mpr h)
  rw [halfEven_intCast] at hk
  exact mul_le_mul_of_nonneg_right (by exact_mod_cast hk) hq.le

theorem nearest_nonneg {x : ℚ} (h : 0 ≤ x) : 0 ≤ nearest x := by
  simpa using le_nearest_of_multiple (x := x) (k := 0) (by simpa using h)

/-- A power of two is a multiple of the quantum of what is smaller, and of what is not much
larger. -/
theorem exists_zpow_eq_mul_quantum {x : ℚ} {n : ℤ} (h : quantumExponent x ≤ n) :
    ∃ k : ℤ, (2 : ℚ) ^ n = k * quantum x := by
  refine ⟨2 ^ (n - quantumExponent x).toNat, ?_⟩
  have hplace : n = (n - quantumExponent x).toNat + quantumExponent x := by omega
  rw [quantum]
  push_cast
  rw [← zpow_natCast, ← zpow_add₀ (by norm_num), ← hplace]

/-- What lies on one side of a power of two is rounded to that side. -/
theorem nearest_le_zpow {x : ℚ} {n : ℤ} (hplace : quantumExponent x ≤ n) (h : x ≤ 2 ^ n) :
    nearest x ≤ 2 ^ n := by
  obtain ⟨k, hk⟩ := exists_zpow_eq_mul_quantum hplace
  rw [hk] at h ⊢
  exact nearest_le_of_multiple h

theorem zpow_le_nearest {x : ℚ} {n : ℤ} (hplace : quantumExponent x ≤ n) (h : 2 ^ n ≤ x) :
    2 ^ n ≤ nearest x := by
  obtain ⟨k, hk⟩ := exists_zpow_eq_mul_quantum hplace
  rw [hk] at h ⊢
  exact le_nearest_of_multiple h

theorem nearest_mono_of_pos {x y : ℚ} (hx : 0 < x) (h : x ≤ y) : nearest x ≤ nearest y := by
  have hy : 0 < y := hx.trans_le h
  have hlog : Int.log 2 x ≤ Int.log 2 y := Int.log_mono_right hx h
  by_cases hsame : quantumExponent x = quantumExponent y
  · have hquantum : quantum x = quantum y := by rw [quantum, quantum, hsame]
    have hmono := halfEven_mono (div_le_div_of_nonneg_right h (quantum_pos y).le)
    rw [nearest, nearest, hquantum]
    exact mul_le_mul_of_nonneg_right (by exact_mod_cast hmono) (quantum_pos y).le
  · -- a larger quantum begins at a power of two, which lies between the two
    have hxplace : quantumExponent x ≤ Int.log 2 y := by
      simp only [quantumExponent, abs_of_pos hx, abs_of_pos hy] at hsame ⊢
      omega
    have hyplace : quantumExponent y ≤ Int.log 2 y := by
      simp only [quantumExponent, abs_of_pos hx, abs_of_pos hy] at hsame ⊢
      omega
    have hlt : Int.log 2 x < Int.log 2 y := by
      simp only [quantumExponent, abs_of_pos hx, abs_of_pos hy] at hsame
      omega
    have hxhigh : x < 2 ^ Int.log 2 y := (Int.lt_zpow_iff_log_lt (by norm_num) hx).mpr hlt
    have hylow : 2 ^ Int.log 2 y ≤ y := Int.zpow_log_le_self (by norm_num) hy
    exact (nearest_le_zpow hxplace hxhigh.le).trans (zpow_le_nearest hyplace hylow)

theorem nearest_mono {x y : ℚ} (h : x ≤ y) : nearest x ≤ nearest y := by
  rcases lt_or_ge 0 x with hx | hx
  · exact nearest_mono_of_pos hx h
  · rcases lt_or_ge y 0 with hy | hy
    · have hneg := nearest_mono_of_pos (neg_pos.mpr hy) (neg_le_neg h)
      rw [nearest_neg, nearest_neg] at hneg
      exact neg_le_neg_iff.mp hneg
    · have hx' := nearest_nonneg (neg_nonneg.mpr hx)
      rw [nearest_neg] at hx'
      exact (neg_nonneg.mp hx').trans (nearest_nonneg hy)

theorem abs_nearest (x : ℚ) : |nearest x| = nearest |x| := by
  rcases le_total 0 x with hx | hx
  · rw [abs_of_nonneg hx, abs_of_nonneg (nearest_nonneg hx)]
  · have hneg := nearest_nonneg (neg_nonneg.mpr hx)
    rw [nearest_neg] at hneg
    rw [abs_of_nonpos hx, nearest_neg, abs_of_nonpos (neg_nonneg.mp hneg)]

/-- Powers of two are doubles. -/
theorem nearest_zpow {n : ℤ} (h : -1074 ≤ n) : nearest (2 ^ n) = 2 ^ n := by
  simpa using nearest_of_lt (m := 1) (by norm_num) h

/-- Whole numbers of at most 53 bits are doubles. -/
theorem nearest_intCast {n : ℤ} (h : |n| < 2 ^ 53) : nearest n = n := by
  obtain ⟨m, rfl | rfl⟩ := Int.eq_nat_or_neg n
  · exact nearest_natCast (by simpa using h)
  · rw [Int.cast_neg, nearest_neg, Int.cast_natCast, nearest_natCast (by simpa using h)]

theorem tooLarge_eq : tooLarge = 2 ^ 53 * 2 ^ (971 : ℤ) := by
  rw [tooLarge, ← zpow_natCast, ← zpow_natCast, ← zpow_add₀ (by norm_num)]
  rfl

theorem nearest_tooLarge : nearest tooLarge = tooLarge := by
  rw [tooLarge, ← zpow_natCast]
  exact nearest_zpow (by omega)

/-- What is not above a large double does not become infinite. -/
theorem abs_nearest_lt_tooLarge {x : ℚ} {m : ℕ} (hm : m < 2 ^ 53) (h : |x| ≤ m * 2 ^ (971 : ℤ)) :
    |nearest x| < tooLarge := by
  have hm' : (m : ℚ) < 2 ^ 53 := by exact_mod_cast hm
  have hunit : (0 : ℚ) < 2 ^ (971 : ℤ) := zpow_pos (by norm_num) _
  rw [abs_nearest]
  calc nearest |x| ≤ nearest (m * 2 ^ (971 : ℤ)) := nearest_mono h
    _ = m * 2 ^ (971 : ℤ) := nearest_of_lt hm (by norm_num)
    _ < 2 ^ 53 * 2 ^ (971 : ℤ) := mul_lt_mul_of_pos_right hm' hunit
    _ = tooLarge := tooLarge_eq.symm

theorem abs_nearest_lt_tooLarge_of_le {x : ℚ} (h : |x| ≤ 2 ^ 1023) : |nearest x| < tooLarge := by
  refine abs_nearest_lt_tooLarge (m := 2 ^ 52) (by norm_num) (h.trans (le_of_eq ?_))
  rw [Nat.cast_pow, Nat.cast_ofNat, ← zpow_natCast, ← zpow_natCast, ← zpow_add₀ (by norm_num)]
  rfl

/-- A number that is not tiny is rounded by a part of itself. -/
theorem abs_nearest_sub_le_of_le {x : ℚ} (h : 2 ^ (-1022 : ℤ) ≤ |x|) :
    |nearest x - x| ≤ |x| / 2 ^ 53 := by
  have hpos : 0 < |x| := lt_of_lt_of_le (zpow_pos (by norm_num) _) h
  have hlog : -1022 ≤ Int.log 2 |x| := (Int.zpow_le_iff_le_log (by norm_num) hpos).mp h
  have hquantum := quantum_le_of_normal (abs_pos.mp hpos) (by omega)
  have herror := abs_nearest_sub_le x
  calc |nearest x - x| ≤ quantum x / 2 := herror
    _ ≤ |x| / 2 ^ 52 / 2 := by linarith
    _ = |x| / 2 ^ 53 := by ring

/-- Below `2 ^ 52` doubles are at most a half apart. -/
theorem abs_nearest_sub_le_quarter {x : ℚ} (h : |x| ≤ 2 ^ 52) : |nearest x - x| ≤ 1 / 4 := by
  by_cases hsmall : quantumExponent x ≤ -1
  · have hquantum : quantum x ≤ 2 ^ (-1 : ℤ) := zpow_le_zpow_right₀ (by norm_num) hsmall
    have herror := abs_nearest_sub_le x
    norm_num at hquantum
    linarith
  · -- only `2 ^ 52` itself has a larger quantum
    have hx : x ≠ 0 := by
      rintro rfl
      exact hsmall (by rw [quantumExponent, abs_zero, Int.log_zero_right]; norm_num)
    have hlog : 52 ≤ Int.log 2 |x| := by
      rw [quantumExponent] at hsmall
      omega
    have hlarge : (2 : ℚ) ^ 52 ≤ |x| := by
      exact_mod_cast (Int.zpow_le_iff_le_log (by norm_num) (abs_pos.mpr hx)).mpr hlog
    have hpower : nearest (2 ^ 52) = 2 ^ 52 := by
      exact_mod_cast nearest_zpow (n := 52) (by norm_num)
    rcases abs_eq (by norm_num) |>.mp (le_antisymm h hlarge) with rfl | rfl
    · rw [hpower]
      norm_num
    · rw [nearest_neg, hpower]
      norm_num

/-! ## Comparisons -/

/-- Of two canonical numbers the one with the larger exponent is larger. -/
theorem Canonical.lt_of_exponent_lt {m n : ℕ} {e f : ℤ} (h : Canonical m e) (h' : Canonical n f)
    (hlt : e < f) : (m : ℚ) * 2 ^ e < n * 2 ^ f := by
  have hle := h.le_exponent
  have hm : (m : ℚ) < 2 ^ 53 := by exact_mod_cast h.lt
  have hn : (2 : ℚ) ^ 52 ≤ n := by exact_mod_cast h'.normal.resolve_right (by omega)
  calc (m : ℚ) * 2 ^ e < 2 ^ 53 * 2 ^ e :=
        mul_lt_mul_of_pos_right hm (zpow_pos (by norm_num) e)
    _ = 2 ^ 52 * 2 ^ (e + 1) := by
        rw [zpow_add₀ (by norm_num)]
        ring
    _ ≤ 2 ^ 52 * 2 ^ f := by
        gcongr
        · norm_num
        · omega
    _ ≤ n * 2 ^ f := mul_le_mul_of_nonneg_right hn (zpow_pos (by norm_num) f).le

theorem Canonical.compare_eq {m n : ℕ} {e f : ℤ} (h : Canonical m e) (h' : Canonical n f) :
    (compare e f).then (compare m n) = compare ((m : ℚ) * 2 ^ e) (n * 2 ^ f) := by
  rcases lt_trichotomy e f with hlt | rfl | hlt
  · rw [compare_lt_iff_lt.mpr hlt, compare_lt_iff_lt.mpr (h.lt_of_exponent_lt h' hlt)]
    rfl
  · have hunit : (0 : ℚ) < 2 ^ e := zpow_pos (by norm_num) e
    rw [compare_eq_iff_eq.mpr rfl]
    show compare m n = _
    rcases lt_trichotomy m n with hmn | rfl | hmn
    · rw [compare_lt_iff_lt.mpr hmn, compare_lt_iff_lt.mpr]
      exact mul_lt_mul_of_pos_right (by exact_mod_cast hmn) hunit
    · rw [compare_eq_iff_eq.mpr rfl, compare_eq_iff_eq.mpr rfl]
    · rw [compare_gt_iff_gt.mpr hmn, compare_gt_iff_gt.mpr]
      exact mul_lt_mul_of_pos_right (by exact_mod_cast hmn) hunit
  · rw [compare_gt_iff_gt.mpr hlt, compare_gt_iff_gt.mpr (h'.lt_of_exponent_lt h hlt)]
    rfl

theorem compare_neg_neg (a b : ℚ) : compare (-a) (-b) = (compare a b).swap := by
  rcases lt_trichotomy a b with h | rfl | h
  · rw [compare_lt_iff_lt.mpr h, compare_gt_iff_gt.mpr (neg_lt_neg h)]
    rfl
  · rw [compare_eq_iff_eq.mpr rfl, compare_eq_iff_eq.mpr rfl]
    rfl
  · rw [compare_gt_iff_gt.mpr h, compare_lt_iff_lt.mpr (neg_lt_neg h)]
    rfl

/-- Finite doubles are compared by their values. -/
theorem compare_of_value? {x y : Float} {u v : ℚ} (hx : value? x = some u)
    (hy : value? y = some v) :
    UnpackedFloat.compare x.toModel.unpack y.toModel.unpack = some (compare u v) := by
  obtain ⟨s, hs, rfl⟩ | ⟨s, m, e, hm, hs, hme, -, rfl⟩ := unpack_of_value? hx
  · obtain ⟨t, ht, rfl⟩ | ⟨t, n, f, hn, ht, -, -, rfl⟩ := unpack_of_value? hy
    · rw [hs, ht]
      rfl
    · have hpos := mantissa_pos hn f
      rw [hs, ht]
      cases t with
      | negative =>
        rw [factor_negative, compare_gt_iff_gt.mpr (by linarith)]
        rfl
      | positive =>
        rw [factor_positive, compare_lt_iff_lt.mpr (by linarith)]
        rfl
  · have hmpos := mantissa_pos hm e
    obtain ⟨t, ht, rfl⟩ | ⟨t, n, f, hn, ht, hnf, -, rfl⟩ := unpack_of_value? hy
    · rw [hs, ht]
      cases s with
      | negative =>
        rw [factor_negative, compare_lt_iff_lt.mpr (by linarith)]
        rfl
      | positive =>
        rw [factor_positive, compare_gt_iff_gt.mpr (by linarith)]
        rfl
    · have hnpos := mantissa_pos hn f
      have hcompare := hme.compare_eq hnf
      rw [hs, ht]
      cases s with
      | negative =>
        cases t with
        | negative =>
          show some ((compare e f).then (compare m n)).swap = _
          rw [hcompare, factor_negative, mul_assoc, mul_assoc, neg_one_mul, neg_one_mul,
            compare_neg_neg]
        | positive =>
          rw [factor_negative, factor_positive, compare_lt_iff_lt.mpr (by linarith)]
          rfl
      | positive =>
        cases t with
        | negative =>
          rw [factor_negative, factor_positive, compare_gt_iff_gt.mpr (by linarith)]
          rfl
        | positive =>
          rw [factor_positive, one_mul, one_mul, ← hcompare]
          rfl

theorem le_iff_isLE {x y : Float} : x ≤ y ↔
    (UnpackedFloat.compare x.toModel.unpack y.toModel.unpack).any Ordering.isLE = true := by
  show decide (x.toModel ≤ y.toModel) = true ↔ _
  rw [decide_eq_true_eq]
  exact Iff.rfl

theorem lt_iff_isLT {x y : Float} : x < y ↔
    UnpackedFloat.compare x.toModel.unpack y.toModel.unpack = some .lt := by
  show decide (x.toModel < y.toModel) = true ↔ _
  rw [decide_eq_true_eq, ← beq_iff_eq]
  exact Iff.rfl

theorem le_iff {x y : Float} {u v : ℚ} (hx : value? x = some u) (hy : value? y = some v) :
    x ≤ y ↔ u ≤ v := by
  rw [le_iff_isLE, compare_of_value? hx hy, Option.any_some, Ordering.isLE_iff_ne_gt]
  exact compare_le_iff_le

theorem abs_lt_tooLarge {x : Float} {v : ℚ} (h : value? x = some v) : |v| < tooLarge := by
  obtain ⟨s, -, rfl⟩ | ⟨s, m, e, hm, -, hcanonical, he, rfl⟩ := unpack_of_value? h
  · rw [abs_zero]
    exact tooLarge_pos
  · rw [mul_assoc, abs_factor_mul, abs_of_pos (mantissa_pos hm e)]
    exact hcanonical.lt_tooLarge_iff.mpr he

theorem lt_iff {x y : Float} {u v : ℚ} (hx : value? x = some u) (hy : value? y = some v) :
    x < y ↔ u < v := by
  rw [lt_iff_isLT, compare_of_value? hx hy, Option.some_inj, compare_lt_iff_lt]

/-- The infinities are the ends of the order. -/
theorem le_of_infinity_positive {x y : Float} (hx : x.toModel.unpack ≠ .notANumber)
    (hy : y.toModel.unpack = .infinity .positive) : x ≤ y := by
  rw [le_iff_isLE, hy]
  match h : x.toModel.unpack with
  | .notANumber => exact absurd h hx
  | .infinity .positive => rfl
  | .infinity .negative => rfl
  | .zero _ => rfl
  | .finite .positive _ _ _ => rfl
  | .finite .negative _ _ _ => rfl

theorem le_of_infinity_negative {x y : Float} (hx : x.toModel.unpack = .infinity .negative)
    (hy : y.toModel.unpack ≠ .notANumber) : x ≤ y := by
  rw [le_iff_isLE, hx]
  match h : y.toModel.unpack with
  | .notANumber => exact absurd h hy
  | .infinity .positive => rfl
  | .infinity .negative => rfl
  | .zero _ => rfl
  | .finite .positive _ _ _ => rfl
  | .finite .negative _ _ _ => rfl

theorem Rounds.ne_notANumber {v : ℚ} {x : Float} (h : Rounds v x) :
    x.toModel.unpack ≠ .notANumber := by
  intro hx
  obtain ⟨-, hvalue⟩ | ⟨-, hinfinite⟩ := h
  · rw [value?_notANumber hx] at hvalue
    cases hvalue
  · rw [hx] at hinfinite
    cases hinfinite

theorem Rounds.eq_nearest {v u : ℚ} {x : Float} (h : Rounds v x) (hx : value? x = some u) :
    u = nearest v := by
  obtain ⟨-, hvalue⟩ | ⟨-, hinfinite⟩ := h
  · exact Option.some_inj.mp (hx.symm.trans hvalue)
  · rw [value?_infinity hinfinite] at hx
    cases hx

/-- What is rounded to an infinity is not far below the first power of two that is too large. -/
theorem Rounds.lt_abs_of_infinity {v : ℚ} {x : Float} {s : Sign} (h : Rounds v x)
    (hx : x.toModel.unpack = .infinity s) : 3 / 4 * tooLarge < |v| ∧ signOf v = s := by
  obtain ⟨-, hvalue⟩ | ⟨hlarge, hinfinite⟩ := h
  · rw [value?_infinity hx] at hvalue
    cases hvalue
  · refine ⟨?_, UnpackedFloat.infinity.inj (hinfinite.symm.trans hx)⟩
    by_contra hle
    refine absurd (abs_nearest_lt_tooLarge (m := 3 * 2 ^ 51) (by norm_num) ?_) (not_lt.mpr hlarge)
    rw [tooLarge_eq] at hle
    rw [Nat.cast_mul, Nat.cast_pow, Nat.cast_ofNat, Nat.cast_ofNat]
    linarith

/-- A number that is rounded to an infinity leaves no finite double behind it. -/
theorem Rounds.infinite_of_le {u v : ℚ} {y : Float} (hy : Rounds v y) (h : u ≤ v)
    (hlarge : tooLarge ≤ nearest u) : y.toModel.unpack = .infinity .positive := by
  have htop := hlarge.trans (nearest_mono h)
  have hpos : ¬v < 0 := fun hneg => by
    have hnearest := nearest_mono hneg.le
    rw [nearest_zero] at hnearest
    linarith [tooLarge_pos]
  obtain ⟨hlt, -⟩ | ⟨-, hinfinite⟩ := hy
  · exact absurd hlt (not_lt.mpr (htop.trans (le_abs_self _)))
  · rwa [signOf, if_neg hpos] at hinfinite

/-- The doubles nearest to two numbers are ordered as the numbers are. -/
theorem Rounds.le {u v : ℚ} {x y : Float} (hx : Rounds u x) (hy : Rounds v y) (h : u ≤ v) :
    x ≤ y := by
  obtain ⟨hxsmall, hxvalue⟩ | ⟨hxlarge, hxinfinite⟩ := id hx
  · obtain ⟨-, hyvalue⟩ | ⟨hylarge, hyinfinite⟩ := hy
    · exact (le_iff hxvalue hyvalue).mpr (nearest_mono h)
    · rcases lt_or_ge v 0 with hv | hv
      · -- an infinity below everything leaves no finite double below it
        have hnegative := nearest_nonneg (neg_nonneg.mpr hv.le)
        rw [nearest_neg] at hnegative
        rw [abs_of_nonpos (by linarith)] at hylarge
        exact absurd hxsmall (not_lt.mpr (by linarith [neg_abs_le (nearest u), nearest_mono h]))
      · rw [signOf, if_neg (not_lt.mpr hv)] at hyinfinite
        exact le_of_infinity_positive hx.ne_notANumber hyinfinite
  · rcases lt_or_ge u 0 with hu | hu
    · rw [signOf, if_pos hu] at hxinfinite
      exact le_of_infinity_negative hxinfinite hy.ne_notANumber
    · rw [abs_of_nonneg (nearest_nonneg hu)] at hxlarge
      exact le_of_infinity_positive hx.ne_notANumber (hy.infinite_of_le h hxlarge)

/-! ## Signs -/

/-- What a double is unpacked to. -/
def IsUnpacked : UnpackedFloat → Prop
  | .finite _ m e _ => Canonical m e ∧ e ≤ 971
  | .zero _ | .infinity _ | .notANumber => True

theorem isUnpacked_unpack (x : Float) : IsUnpacked x.toModel.unpack := by
  cases h : x.toModel.unpack with
  | finite s m e hm => exact canonical_of_unpack h
  | zero s => trivial
  | infinity s => trivial
  | notANumber => trivial

theorem IsUnpacked.unpack_pack {u : UnpackedFloat} (h : IsUnpacked u) :
    unpack .binary64 (pack .binary64 u) = u := by
  cases u with
  | finite s m e hm => rw [unpack_pack_finite s hm h.1, if_pos h.2]
  | zero s => exact unpack_zero s
  | infinity s => exact unpack_infinity s
  | notANumber => rfl

theorem unpack_abs (x : Float) : x.abs.toModel.unpack = x.toModel.unpack.abs := by
  have h := isUnpacked_unpack x
  refine IsUnpacked.unpack_pack (u := x.toModel.unpack.abs) ?_
  cases hx : x.toModel.unpack <;> rw [hx] at h <;> exact h

theorem unpack_neg (x : Float) : (-x).toModel.unpack = x.toModel.unpack.neg := by
  have h := isUnpacked_unpack x
  refine IsUnpacked.unpack_pack (u := x.toModel.unpack.neg) ?_
  cases hx : x.toModel.unpack <;> rw [hx] at h <;> exact h

theorem value?_abs {x : Float} {v : ℚ} (h : value? x = some v) : value? x.abs = some |v| := by
  have habs := unpack_abs x
  obtain ⟨s, hs, rfl⟩ | ⟨s, m, e, hm, hs, -, -, rfl⟩ := unpack_of_value? h
  · rw [hs] at habs
    rw [value?_zero habs, abs_zero]
  · rw [hs] at habs
    rw [value?_finite habs, factor_positive, one_mul, mul_assoc, abs_factor_mul,
      abs_of_pos (mantissa_pos hm e)]

theorem value?_neg {x : Float} {v : ℚ} (h : value? x = some v) : value? (-x) = some (-v) := by
  have hneg := unpack_neg x
  obtain ⟨s, hs, rfl⟩ | ⟨s, m, e, hm, hs, -, -, rfl⟩ := unpack_of_value? h
  · rw [hs] at hneg
    rw [value?_zero hneg, neg_zero]
  · rw [hs] at hneg
    rw [value?_finite hneg, factor_neg, neg_mul, neg_mul]

theorem Rounds.abs {v : ℚ} {x : Float} (h : Rounds v x) : Rounds |v| x.abs := by
  have hnonneg : ¬|v| < 0 := not_lt.mpr (abs_nonneg v)
  rw [Rounds, ← abs_nearest, abs_abs, signOf, if_neg hnonneg]
  obtain ⟨hsmall, hvalue⟩ | ⟨hlarge, hinfinite⟩ := h
  · exact Or.inl ⟨hsmall, value?_abs hvalue⟩
  · refine Or.inr ⟨hlarge, ?_⟩
    rw [unpack_abs, hinfinite]
    rfl

theorem isFinite_sub_eq_false {a b : UnpackedFloat} (h : a.isFinite = false ∨ b.isFinite = false) :
    (UnpackedFloat.sub .binary64 a b).isFinite = false := by
  rcases h with ha | hb
  · cases a with
    | notANumber => rfl
    | infinity s =>
      cases b with
      | infinity t => cases s <;> cases t <;> rfl
      | _ => rfl
    | zero s => cases ha
    | finite s m e hm => cases ha
  · cases b with
    | notANumber => cases a <;> rfl
    | infinity t =>
      cases a with
      | infinity s => cases s <;> cases t <;> rfl
      | _ => rfl
    | zero t => cases hb
    | finite t n f hn => cases hb

theorem isFinite_unpack_pack_eq_false {u : UnpackedFloat} (h : u.isFinite = false) :
    (unpack .binary64 (pack .binary64 u)).isFinite = false := by
  cases u with
  | notANumber => rfl
  | infinity s => cases s <;> rfl
  | zero s => cases h
  | finite s m e hm => cases h

/-- Only finite doubles have a finite difference. -/
theorem isFinite_of_sub {x y : Float} (h : (x - y).isFinite = true) :
    x.isFinite = true ∧ y.isFinite = true := by
  by_contra hinfinite
  rw [not_and_or, Bool.not_eq_true, Bool.not_eq_true] at hinfinite
  have hsub := isFinite_unpack_pack_eq_false (isFinite_sub_eq_false hinfinite)
  exact absurd (h.symm.trans hsub) (by decide)

/-! ## Doubles with the same value -/

theorem eq_of_unpack_eq {x y : Float} (h : x.toModel.unpack = y.toModel.unpack) : x = y := by
  obtain ⟨⟨a, ha⟩⟩ := x
  obtain ⟨⟨b, hb⟩⟩ := y
  obtain rfl : a = b := UInt64.eq_of_toBitVec_eq ((unpack_inj_of_valid ha hb).mp h)
  rfl

/-- Only the two zeros have the same value. -/
theorem eq_of_value?_eq {x y : Float} {v : ℚ} (hx : value? x = some v) (hy : value? y = some v)
    (hv : v ≠ 0) : x = y := by
  obtain ⟨s, -, rfl⟩ | ⟨s, m, e, hm, hs, hme, -, rfl⟩ := unpack_of_value? hx
  · exact absurd rfl hv
  obtain ⟨t, -, hzero⟩ | ⟨t, n, f, hn, ht, hnf, -, hvalue⟩ := unpack_of_value? hy
  · exact absurd hzero hv
  have hmpos := mantissa_pos hm e
  have hnpos := mantissa_pos hn f
  rw [mul_assoc, mul_assoc] at hvalue
  have hmagnitude : (m : ℚ) * 2 ^ e = n * 2 ^ f := by
    have habs := congrArg (|·|) hvalue
    rwa [abs_factor_mul, abs_factor_mul, abs_of_pos hmpos, abs_of_pos hnpos] at habs
  have hsign : s = t := by
    have hsigns := congrArg signOf hvalue
    rwa [signOf_factor_mul s hmpos, signOf_factor_mul t hnpos] at hsigns
  obtain rfl : e = f := by
    rcases lt_trichotomy e f with hlt | heq | hlt
    · exact absurd hmagnitude (hme.lt_of_exponent_lt hnf hlt).ne
    · exact heq
    · exact absurd hmagnitude (hnf.lt_of_exponent_lt hme hlt).ne'
  have hmantissa : m = n := by
    have hcast := mul_right_cancel₀ (zpow_pos (by norm_num) e).ne' hmagnitude
    exact_mod_cast hcast
  subst hsign hmantissa
  exact eq_of_unpack_eq (hs.trans ht.symm)

/-! ## The distance of doubles -/

/-- Rounding does not bring a number to where doubles lie closer. -/
theorem quantum_le_quantum_nearest (x : ℚ) : quantum x ≤ quantum (nearest x) := by
  have hpositive {x : ℚ} (hx : 0 < x) : quantumExponent x ≤ quantumExponent (nearest x) := by
    by_cases hnormal : -1074 ≤ Int.log 2 x - 52
    · have hplace : quantumExponent x = Int.log 2 x - 52 := by
        rw [quantumExponent, abs_of_pos hx, max_eq_left hnormal]
      have hself : (2 : ℚ) ^ Int.log 2 x ≤ x := Int.zpow_log_le_self (by norm_num) hx
      have hlow := zpow_le_nearest (by omega) hself
      have hnearest : 0 < nearest x := lt_of_lt_of_le (zpow_pos (by norm_num) _) hlow
      have hlog : Int.log 2 x ≤ Int.log 2 (nearest x) :=
        (Int.zpow_le_iff_le_log (by norm_num) hnearest).mp hlow
      rw [hplace, quantumExponent, abs_of_pos hnearest]
      omega
    · rw [quantumExponent, abs_of_pos hx, max_eq_right (by omega)]
      exact le_max_right _ _
  refine zpow_le_zpow_right₀ (by norm_num) ?_
  rcases lt_trichotomy x 0 with hx | rfl | hx
  · have hneg := hpositive (neg_pos.mpr hx)
    rwa [nearest_neg, quantumExponent, quantumExponent, abs_neg, abs_neg] at hneg
  · rw [nearest_zero]
  · exact hpositive hx

theorem quantum_factor_mul {s : Sign} {m : ℕ} {e : ℤ} (hm : 0 < m) (h : Canonical m e) :
    quantum (factor s * m * 2 ^ e) = 2 ^ e := by
  have hlog : m.log2 < 53 := (Nat.log2_lt hm.ne').mpr h.lt
  have hplace : quantumExponent (m * 2 ^ e) = e := by
    rw [quantumExponent_eq hm.ne']
    have hle := h.le_exponent
    rcases h.normal with hnormal | hlowest
    · have hlog' : 52 ≤ m.log2 := (Nat.le_log2 hm.ne').mpr hnormal
      omega
    · omega
  rw [quantum, quantumExponent, mul_assoc, abs_factor_mul, ← quantumExponent, hplace]

/-- Different multiples of a unit are a unit apart. -/
theorem le_abs_sub_of_multiples {u v q : ℚ} (hq : 0 < q) {k l : ℤ} (hu : u = k * q)
    (hv : v = l * q) (hne : u ≠ v) : q ≤ |u - v| := by
  have hkl : k - l ≠ 0 := fun h => hne (by rw [hu, hv, sub_eq_zero.mp h])
  have hone : (1 : ℚ) ≤ |((k - l : ℤ) : ℚ)| := by exact_mod_cast Int.one_le_abs hkl
  have hdiff : u - v = (k - l : ℤ) * q := by
    rw [hu, hv]
    push_cast
    ring
  rw [hdiff, abs_mul, abs_of_pos hq]
  nlinarith

/-- Different doubles are at least half a quantum apart. -/
theorem quantum_le_of_ne {x y : Float} {u v : ℚ} (hx : value? x = some u) (hy : value? y = some v)
    (hu : u ≠ 0) (hne : u ≠ v) : quantum u / 2 ≤ |u - v| := by
  obtain ⟨s, -, rfl⟩ | ⟨s, m, e, hm, -, hme, -, rfl⟩ := unpack_of_value? hx
  · exact absurd rfl hu
  have hhalf : (2 : ℚ) ^ e / 2 = 2 ^ (e - 1) := by
    rw [zpow_sub₀ (by norm_num), zpow_one]
  rw [quantum_factor_mul hm hme, hhalf]
  obtain ⟨k, hk⟩ := exists_eq_mul_zpow s m (by omega : e - 1 ≤ e)
  obtain ⟨t, -, rfl⟩ | ⟨t, n, f, hn, -, hnf, -, rfl⟩ := unpack_of_value? hy
  · exact le_abs_sub_of_multiples (zpow_pos (by norm_num) _) hk (l := 0) (by simp) hne
  · by_cases hclose : e - 1 ≤ f
    · obtain ⟨l, hl⟩ := exists_eq_mul_zpow t n hclose
      exact le_abs_sub_of_multiples (zpow_pos (by norm_num) _) hk hl hne
    · -- a much smaller number is not even half as large
      have hm' : (2 : ℚ) ^ 52 ≤ m := by
        exact_mod_cast hme.normal.resolve_right (by have := hnf.le_exponent; omega)
      have hn' : (n : ℚ) ≤ 2 ^ 53 := by exact_mod_cast hnf.lt.le
      have hlarge : 2 ^ 53 * 2 ^ (e - 1) ≤ |factor s * m * 2 ^ e| := by
        rw [mul_assoc, abs_factor_mul, abs_of_pos (mantissa_pos hm e), ← hhalf]
        have := mul_le_mul_of_nonneg_right hm' (zpow_pos (by norm_num : (0 : ℚ) < 2) e).le
        linarith
      have hsmall : |factor t * n * 2 ^ f| ≤ 2 ^ 52 * 2 ^ (e - 1) := by
        rw [mul_assoc, abs_factor_mul, abs_of_pos (mantissa_pos hn f)]
        calc (n : ℚ) * 2 ^ f ≤ 2 ^ 53 * 2 ^ f :=
              mul_le_mul_of_nonneg_right hn' (zpow_pos (by norm_num) f).le
          _ = 2 ^ 52 * 2 ^ (f + 1) := by
              rw [zpow_add₀ (by norm_num)]
              ring
          _ ≤ 2 ^ 52 * 2 ^ (e - 1) := by
              gcongr
              · norm_num
              · omega
      have hunit : (0 : ℚ) < 2 ^ (e - 1) := zpow_pos (by norm_num) _
      linarith [abs_sub_abs_le_abs_sub (factor s * m * 2 ^ e) (factor t * n * 2 ^ f)]

end ImplicitPlot.Number

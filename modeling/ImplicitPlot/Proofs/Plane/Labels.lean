import ImplicitPlot.Proofs.Plane.Notation
import ImplicitPlot.Proofs.Plane.Spacing

/-
  Labels that tell grid lines apart. Different lines of one direction have different labels, but
  for lines that are written with an exponent because they are large, and that are twenty or more
  spacings away from the axis; two of these have the same label exactly if they have the same sign
  and the same digits (`label_eq_iff_indistinct`).

  A label in positions has digits enough for a thousandth of a power of ten of which the spacing
  is half, and different lines are an eighth of it apart. A label with an exponent has the same
  digits near the axis, but far away only two of them may be left for any number of lines.
-/
namespace ImplicitPlot

open Number

namespace Graticule

/-! ## Digits enough -/

theorem le_precisionOf (k : ℤ) : 3 - k ≤ precisionOf k := by
  rw [precisionOf]
  split <;> omega

/-- The digits behind the leading one in a label with an exponent. -/
def exponentPlaces (k : ℤ) : ℕ := max (precisionOf k - 1) 1

theorem le_exponentPlaces (k : ℤ) : 2 - k ≤ exponentPlaces k := by
  have hprecision := le_precisionOf k
  rw [exponentPlaces]
  omega

section Apart

variable {k : ℤ} {s : ℚ} {u v : Exact}

/-- What is a quarter of a spacing apart is more than a ninth of the power of ten apart. -/
theorem ninth_lt_of_apart (hclose : |2 * s - 10 ^ k| ≤ 10 ^ k / 2 ^ 51) {d : ℚ} (h : s / 4 ≤ d) :
    10 ^ k / 9 < d := by
  have hpos : (0 : ℚ) < 10 ^ k := zpow_pos (by norm_num) k
  linarith [neg_le_of_abs_le hclose]

/-- Digits behind the point tell lines apart. -/
theorem fixed_ne (hclose : |2 * s - 10 ^ k| ≤ 10 ^ k / 2 ^ 51)
    (hapart : s / 4 ≤ |u.magnitude - v.magnitude|) :
    (roundQuotient (u.num * tenTo (precisionOf k)) u.den : ℚ) / 10 ^ precisionOf k ≠
      roundQuotient (v.num * tenTo (precisionOf k)) v.den / 10 ^ precisionOf k := by
  intro heq
  have huerror := u.abs_fixed_sub_le (precisionOf k)
  have hverror := v.abs_fixed_sub_le (precisionOf k)
  rw [heq, abs_sub_comm] at huerror
  have hsum := (abs_sub_le _ _ _).trans (add_le_add huerror hverror)
  have hunit : (1 : ℚ) / 10 ^ precisionOf k ≤ 10 ^ k / 1000 := by
    have hplace : (10 : ℚ) ^ (-(precisionOf k : ℤ)) ≤ 10 ^ (k - 3) :=
      zpow_le_zpow_right₀ (by norm_num) (by have := le_precisionOf k; omega)
    rw [zpow_neg, zpow_natCast, zpow_sub₀ (by norm_num)] at hplace
    rw [one_div]
    norm_num at hplace ⊢
    exact hplace
  have hdistance := ninth_lt_of_apart hclose hapart
  have hpos : (0 : ℚ) < 10 ^ k := zpow_pos (by norm_num) k
  have hsplit : (1 : ℚ) / 10 ^ precisionOf k =
      1 / 2 / 10 ^ precisionOf k + 1 / 2 / 10 ^ precisionOf k := by
    ring
  linarith

/-- Digits behind the leading one tell small lines apart. -/
theorem small_significand_ne (hclose : |2 * s - 10 ^ k| ≤ 10 ^ k / 2 ^ 51)
    (hapart : s / 4 ≤ |u.magnitude - v.magnitude|) (hu : 0 < u.mantissa) (hv : 0 < v.mantissa)
    (husmall : u.magnitude ≤ 2 / 10 ^ 4)
    (hvscientific : v.magnitude ≤ 2 / 10 ^ 4 ∨ 10 ^ 4 ≤ v.magnitude) :
    u.significand (exponentPlaces k) ≠ v.significand (exponentPlaces k) := by
  intro heq
  have hpos : (0 : ℚ) < 10 ^ k := zpow_pos (by norm_num) k
  obtain ⟨hulow, -⟩ := Exact.decade_bounds hu
  have humagnitude : 0 < u.magnitude := (zpow_pos (by norm_num) _).trans_le hulow
  have hplaces := le_exponentPlaces k
  have hone : 1 ≤ exponentPlaces k := le_max_right _ _
  have hunit : (10 : ℚ) ^ (-(exponentPlaces k : ℤ)) ≤ 10 ^ k / 100 := by
    have hplace : (10 : ℚ) ^ (-(exponentPlaces k : ℤ)) ≤ 10 ^ (k - 2) :=
      zpow_le_zpow_right₀ (by norm_num) (by omega)
    rw [zpow_sub₀ (by norm_num)] at hplace
    norm_num at hplace ⊢
    exact hplace
  have htenth : (10 : ℚ) ^ (-(exponentPlaces k : ℤ)) ≤ 1 / 10 := by
    have hplace : (10 : ℚ) ^ (-(exponentPlaces k : ℤ)) ≤ 10 ^ (-1 : ℤ) :=
      zpow_le_zpow_right₀ (by norm_num) (by omega)
    norm_num at hplace ⊢
    exact hplace
  have hulast := Exact.zpow_lastPlace_le hu (exponentPlaces k)
  rcases hvscientific with hvsmall | hvlarge
  · have hvlast := Exact.zpow_lastPlace_le hv (exponentPlaces k)
    have hunear : (10 : ℚ) ^ u.lastPlace (exponentPlaces k) ≤ 2 / 10 ^ 4 * (10 ^ k / 100) :=
      hulast.trans (mul_le_mul husmall hunit (zpow_nonneg (by norm_num) _) (by norm_num))
    have hvnear : (10 : ℚ) ^ v.lastPlace (exponentPlaces k) ≤ 2 / 10 ^ 4 * (10 ^ k / 100) :=
      hvlast.trans (mul_le_mul hvsmall hunit (zpow_nonneg (by norm_num) _) (by norm_num))
    have hdistance := ninth_lt_of_apart hclose hapart
    linarith [Exact.abs_sub_le_of_significand_eq hu hv heq]
  · have hvdecade := Exact.zpow_decade_le_of_significand_eq hu hv heq
    obtain ⟨-, hvhigh⟩ := Exact.decade_bounds hv
    have hunear : (10 : ℚ) ^ u.lastPlace (exponentPlaces k) ≤ 2 / 10 ^ 4 * (1 / 10) :=
      hulast.trans (mul_le_mul husmall htenth (zpow_nonneg (by norm_num) _) (by norm_num))
    rw [zpow_add₀ (by norm_num), zpow_one] at hvhigh
    linarith

/-- Two digits tell lines near the axis apart. -/
theorem near_significand_ne (hclose : |2 * s - 10 ^ k| ≤ 10 ^ k / 2 ^ 51)
    (hapart : s / 4 ≤ |u.magnitude - v.magnitude|) (hu : 0 < u.mantissa) (hv : 0 < v.mantissa)
    (hnear : u.magnitude ≤ 99 / 10 * 10 ^ k) :
    u.significand (exponentPlaces k) ≠ v.significand (exponentPlaces k) := by
  intro heq
  have hpos : (0 : ℚ) < 10 ^ k := zpow_pos (by norm_num) k
  have hsmall := Exact.abs_sub_le_of_near hu hv heq (le_max_right _ _) hnear
  linarith [ninth_lt_of_apart hclose hapart]

end Apart

/-! ## Lines near the axis -/

variable {lo hi spacing : Float} {s : ℚ}

/-- A line is near the axis, or twenty spacings away from it. -/
theorem near_or_far (hs : value? spacing = some s) (hpos : 0 < s) {k : ℤ} (hk : |k| ≤ 2 ^ 63)
    {v : ℚ} (hv : value? (place spacing k) = some v) :
    |v| ≤ 20 * s - s / 4 ∨ (place spacing k).abs ≥ 20 * spacing := by
  have hrounds := (place_rounds hs hk).abs
  obtain ⟨m, hm⟩ := exists_nearest_eq_intCast k
  rw [hm, abs_mul, abs_of_pos hpos, ← Int.cast_abs] at hrounds
  by_cases hfar : 20 ≤ |m|
  · have htwenty : value? 20 = some 20 := value?_ofNat (by norm_num)
    have hfar' : (20 : ℚ) ≤ |m| := by exact_mod_cast hfar
    exact Or.inr ((mul_rounds htwenty hs).le hrounds (mul_le_mul_of_nonneg_right hfar' hpos.le))
  · have hvalue := hrounds.eq_nearest (value?_abs hv)
    have hnear : ((|m| : ℤ) : ℚ) ≤ 19 := by exact_mod_cast (by omega : |m| ≤ 19)
    have hsmall : |((|m| : ℤ) : ℚ)| ≤ 2 ^ 52 + 1 := by
      rw [Int.cast_abs, abs_abs, ← Int.cast_abs]
      exact hnear.trans (by norm_num)
    have herror := le_of_abs_le (abs_nearest_mul_sub_le hs hpos hsmall)
    have hscaled := mul_le_mul_of_nonneg_right hnear hpos.le
    exact Or.inl (by linarith)

/-! ## Two lines with one label -/

theorem value?_largest : value? 1e4 = some (10 ^ 4) := by
  have hunpack : (1e4 : Float).toModel.unpack =
      .finite .positive 5497558138880000 (-39) (by norm_num) := rfl
  rw [value?_finite hunpack, factor_positive]
  norm_num

theorem value?_smallest : value? 1e-4 = some (7378697629483821 / 2 ^ 66) := by
  have hunpack : (1e-4 : Float).toModel.unpack =
      .finite .positive 7378697629483821 (-66) (by norm_num) := rfl
  rw [value?_finite hunpack, factor_positive]
  norm_num

theorem isScientific_cases {x : Float} {v : ℚ} (hx : value? x = some v) (h : IsScientific x) :
    |v| ≤ 2 / 10 ^ 4 ∨ x.abs ≥ 1e4 ∧ 10 ^ 4 ≤ |v| := by
  rcases h with hlarge | ⟨-, hsmall⟩
  · exact Or.inr ⟨hlarge, (le_iff value?_largest (value?_abs hx)).mp hlarge⟩
  · have hle := (le_iff (value?_abs hx) value?_smallest).mp hsmall
    exact Or.inl (hle.trans (by norm_num))

/-- A line whose digits are those of another one is large, and far from the axis. -/
theorem large_and_far {k : ℤ} (hs : value? spacing = some s) (hpos : 0 < s)
    (hclose : |2 * s - 10 ^ k| ≤ 10 ^ k / 2 ^ 51) {x y : Float} {u v : Exact}
    (hx : x ∈ lines lo hi spacing) (hxvalue : Exact.ofFloat? x = some u)
    (hyvalue : Exact.ofFloat? y = some v) (hu : 0 < u.mantissa) (hv : 0 < v.mantissa)
    (hxform : IsScientific x) (hyform : IsScientific y)
    (hapart : s / 4 ≤ |u.magnitude - v.magnitude|)
    (hdigits : u.significand (exponentPlaces k) = v.significand (exponentPlaces k)) :
    x.abs ≥ 1e4 ∧ x.abs ≥ 20 * spacing := by
  constructor
  · have hycases : v.magnitude ≤ 2 / 10 ^ 4 ∨ 10 ^ 4 ≤ v.magnitude := by
      rw [← Exact.abs_value]
      exact (isScientific_cases (value?_of_exact hyvalue) hyform).imp_right And.right
    rcases isScientific_cases (value?_of_exact hxvalue) hxform with hsmall | ⟨hlarge, -⟩
    · rw [Exact.abs_value] at hsmall
      exact absurd hdigits (small_significand_ne hclose hapart hu hv hsmall hycases)
    · exact hlarge
  · obtain ⟨l, hfirst, hlast, rfl, -⟩ := exists_of_mem_lines hx
    rcases near_or_far hs hpos (abs_line_le hfirst hlast) (value?_of_exact hxvalue) with
      hnear | hfar
    · rw [Exact.abs_value] at hnear
      have hbound : u.magnitude ≤ 99 / 10 * 10 ^ k := by
        have hten : (0 : ℚ) < 10 ^ k := zpow_pos (by norm_num) k
        linarith [le_of_abs_le hclose]
      exact absurd hdigits (near_significand_ne hclose hapart hu hv hbound)
    · exact hfar

/-- Two lines that are large and far from the axis, with the same sign and the same digits. -/
structure Indistinct (g : Graticule) (x y : Float) : Prop where
  large : x.abs ≥ 1e4 ∧ y.abs ≥ 1e4
  far : x.abs ≥ 20 * g.spacing ∧ y.abs ≥ 20 * g.spacing
  digits : ∃ u v, Exact.ofFloat? x = some u ∧ Exact.ofFloat? y = some v ∧
    u.negative = v.negative ∧
    u.significand (max (g.precision - 1) 1) = v.significand (max (g.precision - 1) 1)

theorem Indistinct.label_eq {g : Graticule} {x y : Float} (h : g.Indistinct x y) :
    g.label x = g.label y := by
  obtain ⟨⟨hx, hy⟩, -, u, v, hu, hv, hsign, hdigits⟩ := h
  exact coordinateLabel_eq_of_significand_eq hu hv (Or.inl hx) (Or.inl hy) hsign hdigits

/-- A line with a value is not at the axis. -/
theorem value_ne_zero {x : Float} {u : Exact} (hx : x ∈ lines lo hi spacing)
    (hu : Exact.ofFloat? x = some u) : u.value ≠ 0 := by
  intro hzero
  have haxis := le_abs_of_mem_lines hx (value?_of_exact hu)
  rw [hzero, abs_zero] at haxis
  norm_num at haxis

/-- Different lines with a value and one label. -/
theorem of_label_eq {k : ℤ} (hs : value? spacing = some s) (hpos : 0 < s)
    (hclose : |2 * s - 10 ^ k| ≤ 10 ^ k / 2 ^ 51) {x y : Float} {u v : Exact}
    (hx : x ∈ lines lo hi spacing) (hy : y ∈ lines lo hi spacing)
    (hxvalue : Exact.ofFloat? x = some u) (hyvalue : Exact.ofFloat? y = some v) (hne : x ≠ y)
    (hlabel : coordinateLabel (precisionOf k) x = coordinateLabel (precisionOf k) y) :
    (x.abs ≥ 1e4 ∧ x.abs ≥ 20 * spacing) ∧ (y.abs ≥ 1e4 ∧ y.abs ≥ 20 * spacing) ∧
      u.negative = v.negative ∧
      u.significand (exponentPlaces k) = v.significand (exponentPlaces k) := by
  have huvalue := value?_of_exact hxvalue
  have hvvalue := value?_of_exact hyvalue
  have hune := value_ne_zero hx hxvalue
  have hvne := value_ne_zero hy hyvalue
  have hu := Exact.mantissa_pos_of_value_ne hune
  have hv := Exact.mantissa_pos_of_value_ne hvne
  obtain ⟨hsign, hrounded⟩ := of_coordinateLabel_eq hxvalue hyvalue hu hv hlabel
  have hapart : s / 4 ≤ |u.magnitude - v.magnitude| := by
    obtain ⟨m, hmfirst, hmlast, hxplace, -⟩ := exists_of_mem_lines hx
    obtain ⟨n, hnfirst, hnlast, hyplace, -⟩ := exists_of_mem_lines hy
    rw [← Exact.abs_value_sub hsign]
    refine place_separated hs hpos (abs_line_le hmfirst hmlast) (abs_line_le hnfirst hnlast)
      (hxplace ▸ huvalue) (hyplace ▸ hvvalue) hune hvne fun heq => ?_
    rw [← heq] at hvvalue
    exact hne (eq_of_value?_eq huvalue hvvalue hune)
  rcases hrounded with ⟨hxform, hyform, hdigits⟩ | hfixed
  · refine ⟨?_, ?_, hsign, hdigits⟩
    · exact large_and_far hs hpos hclose hx hxvalue hyvalue hu hv hxform hyform hapart
        hdigits
    · rw [abs_sub_comm] at hapart
      exact large_and_far hs hpos hclose hy hyvalue hxvalue hv hu hyform hxform hapart
        hdigits.symm
  · exact absurd hfixed (fixed_ne hclose hapart)

/-- Two different lines without a value are at the two infinities. -/
theorem infinities_of_none (hs : value? spacing = some s) {x y : Float}
    (hx : x ∈ lines lo hi spacing) (hy : y ∈ lines lo hi spacing)
    (hxvalue : Exact.ofFloat? x = none) (hyvalue : Exact.ofFloat? y = none) (hne : x ≠ y) :
    x.toModel.unpack = .infinity .negative ∧ y.toModel.unpack = .infinity .positive ∨
      y.toModel.unpack = .infinity .negative ∧ x.toModel.unpack = .infinity .positive := by
  have hinfinite {x : Float} (hx : x ∈ lines lo hi spacing) (hvalue : Exact.ofFloat? x = none) :
      ∃ t, x.toModel.unpack = .infinity t := by
    obtain ⟨k, hfirst, hlast, rfl, -⟩ := exists_of_mem_lines hx
    obtain ⟨-, hsome⟩ | ⟨-, hinfinity⟩ := place_rounds hs (abs_line_le hfirst hlast)
    · rw [value?, hvalue] at hsome
      cases hsome
    · exact ⟨_, hinfinity⟩
  obtain ⟨t, ht⟩ := hinfinite hx hxvalue
  obtain ⟨t', ht'⟩ := hinfinite hy hyvalue
  cases t <;> cases t'
  · exact absurd (eq_of_unpack_eq (ht.trans ht'.symm)) hne
  · exact Or.inl ⟨ht, ht'⟩
  · exact Or.inr ⟨ht', ht⟩
  · exact absurd (eq_of_unpack_eq (ht.trans ht'.symm)) hne

/-- Different lines of one direction have the same label exactly if they are indistinct. -/
theorem label_eq_iff {g : Graticule} {k : ℤ} (hspacing : g.spacing = powerOfTen k / 2)
    (hprecision : g.precision = precisionOf k) (hpower : 22 < k → PowerIsAccurate k)
    (hspan : (hi - lo).isFinite = true) {x y : Float} (hx : x ∈ lines lo hi (powerOfTen k / 2))
    (hy : y ∈ lines lo hi (powerOfTen k / 2)) (hne : x ≠ y) :
    g.label x = g.label y ↔ g.Indistinct x y := by
  refine ⟨fun hlabel => ?_, Indistinct.label_eq⟩
  rw [label, label, hprecision] at hlabel
  by_cases htiny : k ≤ -30
  · rw [lines_eq_nil_of_tiny htiny] at hx
    cases hx
  obtain ⟨s, hs, hclose⟩ := spacing_accurate (by omega : -30 ≤ k) hpower
  have hpos : 0 < s := by
    have hten : (0 : ℚ) < 10 ^ k := zpow_pos (by norm_num) k
    linarith [neg_le_of_abs_le hclose]
  cases hxvalue : Exact.ofFloat? x with
  | none =>
    cases hyvalue : Exact.ofFloat? y with
    | none =>
      obtain ⟨hhifinite, hlofinite⟩ := isFinite_of_sub hspan
      obtain ⟨a, ha⟩ := isFinite_iff.mp hlofinite
      obtain ⟨b, hb⟩ := isFinite_iff.mp hhifinite
      rcases infinities_of_none hs hx hy hxvalue hyvalue hne with hends | hends
      · exact absurd hends (lines_one_infinity ha hb hs hpos hspan hx hy)
      · exact absurd hends (lines_one_infinity ha hb hs hpos hspan hy hx)
    | some v =>
      have hv := Exact.mantissa_pos_of_value_ne (value_ne_zero hy hyvalue)
      exact absurd hlabel.symm (coordinateLabel_ne_of_none hyvalue hv hxvalue)
  | some u =>
    cases hyvalue : Exact.ofFloat? y with
    | none =>
      have hu := Exact.mantissa_pos_of_value_ne (value_ne_zero hx hxvalue)
      exact absurd hlabel (coordinateLabel_ne_of_none hxvalue hu hyvalue)
    | some v =>
      obtain ⟨⟨hxlarge, hxfar⟩, ⟨hylarge, hyfar⟩, hsign, hdigits⟩ :=
        of_label_eq hs hpos hclose hx hy hxvalue hyvalue hne hlabel
      rw [← hspacing] at hxfar hyfar
      rw [exponentPlaces, ← hprecision] at hdigits
      exact ⟨⟨hxlarge, hylarge⟩, ⟨hxfar, hyfar⟩, u, v, hxvalue, hyvalue, hsign, hdigits⟩

/-- In a window that can be drawn, two different lines of one direction have the same label
exactly if they are written with an exponent because they are large, are at least twenty spacings
away from the axis, and agree in their signs and in their digits. -/
theorem label_eq_iff_indistinct {w : Window} (hw : w.check = .ok ())
    (hpower : 22 < decadeOf w.xSpan → PowerIsAccurate (decadeOf w.xSpan)) {x y : Float}
    (hlines : x ∈ (ofWindow w).vertical ∧ y ∈ (ofWindow w).vertical ∨
      x ∈ (ofWindow w).horizontal ∧ y ∈ (ofWindow w).horizontal) (hne : x ≠ y) :
    (ofWindow w).label x = (ofWindow w).label y ↔ (ofWindow w).Indistinct x y := by
  obtain ⟨hxopen, hyopen⟩ := Window.check_eq_ok_iff.mp hw
  have hgraticule : ofWindow w =
      ⟨powerOfTen (decadeOf w.xSpan) / 2, precisionOf (decadeOf w.xSpan),
        lines w.xMin w.xMax (powerOfTen (decadeOf w.xSpan) / 2),
        lines w.yMin w.yMax (powerOfTen (decadeOf w.xSpan) / 2)⟩ := by
    rw [ofWindow, hxopen]
    rfl
  rw [hgraticule] at hlines ⊢
  rw [Window.isOpen, Bool.and_eq_true] at hxopen hyopen
  rcases hlines with ⟨hx, hy⟩ | ⟨hx, hy⟩
  · exact label_eq_iff rfl rfl hpower hxopen.1 hx hy hne
  · exact label_eq_iff rfl rfl hpower hyopen.1 hx hy hne

/-- A window a hundred thousand units away from the vertical axis. -/
def offsetWindow : Window := ⟨100000, 100001, -1, 1⟩

theorem check_offsetWindow : offsetWindow.check = .ok () :=
  Window.check_eq_ok_iff.mpr ⟨by decide +kernel, by decide +kernel⟩

theorem vertical_offsetWindow : (ofWindow offsetWindow).vertical = [100000, 100000.5, 100001] := by
  decide +kernel

theorem horizontal_offsetWindow : (ofWindow offsetWindow).horizontal = [-1, -0.5, 0.5, 1] := by
  decide +kernel

theorem label_eq_iff_indistinct_offset :
    ((ofWindow offsetWindow).label 100000 = (ofWindow offsetWindow).label 100001 ↔
        (ofWindow offsetWindow).Indistinct 100000 100001) ∧
      ((ofWindow offsetWindow).label 0.5 = (ofWindow offsetWindow).label 1 ↔
        (ofWindow offsetWindow).Indistinct 0.5 1) := by
  have hpower : 22 < decadeOf offsetWindow.xSpan → PowerIsAccurate (decadeOf offsetWindow.xSpan) :=
    fun h => absurd h (by decide +kernel)
  constructor
  · refine label_eq_iff_indistinct check_offsetWindow hpower (Or.inl ?_) (by decide +kernel)
    rw [vertical_offsetWindow]
    exact ⟨by simp, by simp⟩
  · refine label_eq_iff_indistinct check_offsetWindow hpower (Or.inr ?_) (by decide +kernel)
    rw [horizontal_offsetWindow]
    exact ⟨by simp, by simp⟩

/-- Far from the axis two digits behind the leading one are the same for all lines. -/
theorem labels_not_distinct :
    offsetWindow.check = .ok () ∧ ∃ x ∈ (ofWindow offsetWindow).vertical,
      ∃ y ∈ (ofWindow offsetWindow).vertical, x ≠ y ∧
        (ofWindow offsetWindow).label x = (ofWindow offsetWindow).label y := by
  rw [vertical_offsetWindow]
  exact ⟨check_offsetWindow, 100000, by simp, 100001, by simp, by decide +kernel, by decide +kernel⟩

end Graticule

end ImplicitPlot

import ImplicitPlot.Proofs.Plane.Lines

/-
  The spacing of grid lines. It is half of a power of ten, up to the rounding of the power
  (`spacing_accurate`). Different lines are at least a quarter of a spacing apart, wherever they
  are (`place_separated`): near the axis they are rounded by less than that, and far away doubles
  lie no closer. A window that can be drawn does not have lines at both infinities
  (`lines_one_infinity`).
-/
namespace ImplicitPlot

open Number

/-! ## Powers of ten -/

/-- The power function of the system is off by less than a unit of the last place. -/
def PowerIsAccurate (k : ℤ) : Prop :=
  ∃ v, value? (Float.pow 10 (.ofInt k)) = some v ∧ |v - 10 ^ k| ≤ 10 ^ k / 2 ^ 52

theorem value?_powerOfTen_of_lt {k : ℤ} (h : k < -331) : value? (powerOfTen k) = some 0 := by
  have hzero : powerOfTen k = 0.0 := by
    rw [powerOfTen, if_pos (by omega), Decimal.toFloat]
    refine if_pos (Or.inr ?_)
    show ((digits 1).length : ℤ) + k < -330
    have hone : (digits 1).length = 1 := rfl
    omega
  have hunpack : (0.0 : Float).toModel.unpack = .zero .positive := rfl
  rw [hzero, value?_zero hunpack]

theorem powerOfTen_rounds {k : ℤ} (hlow : -331 ≤ k) (hhigh : k ≤ 22) :
    Rounds (10 ^ k) (powerOfTen k) := by
  have hone : (digits 1).length = 1 := rfl
  have hread : powerOfTen k = Float.ofScientific 1 (k < 0) k.natAbs := by
    rw [powerOfTen, if_pos hhigh, Decimal.toFloat]
    dsimp only
    rw [if_neg (by omega), if_neg (by omega)]
  have hexponent : (if decide (k < 0) then -(k.natAbs : ℤ) else k.natAbs) = k := by
    simp only [decide_eq_true_eq]
    split <;> omega
  have hrounds := float_ofScientific_rounds (m := 1) (by norm_num) (k < 0)
    (by omega : k.natAbs ≤ 2048)
  rw [hexponent, Nat.cast_one, one_mul] at hrounds
  rwa [hread]

/-- Small powers of ten are the nearest doubles. -/
theorem value?_powerOfTen {k : ℤ} (hlow : -331 ≤ k) (hhigh : k ≤ 22) :
    value? (powerOfTen k) = some (nearest (10 ^ k)) := by
  have hpos : (0 : ℚ) < 10 ^ k := zpow_pos (by norm_num) k
  have hle : (10 : ℚ) ^ k ≤ 2 ^ 1023 := by
    calc (10 : ℚ) ^ k ≤ 10 ^ (22 : ℤ) := zpow_le_zpow_right₀ (by norm_num) hhigh
      _ ≤ 2 ^ 74 := by norm_num
      _ ≤ 2 ^ 1023 := pow_le_pow_right₀ (by norm_num) (by norm_num)
  refine (powerOfTen_rounds hlow hhigh).value?_eq (abs_nearest_lt_tooLarge_of_le ?_)
  rwa [abs_of_pos hpos]

/-- A power of ten that is not tiny is off by less than a unit of the last place. -/
theorem powerOfTen_accurate {k : ℤ} (hlow : -30 ≤ k) (hpower : 22 < k → PowerIsAccurate k) :
    ∃ v, value? (powerOfTen k) = some v ∧ |v - 10 ^ k| ≤ 10 ^ k / 2 ^ 52 := by
  by_cases hhigh : k ≤ 22
  · have hpos : (0 : ℚ) < 10 ^ k := zpow_pos (by norm_num) k
    have hnormal : (2 : ℚ) ^ (-1022 : ℤ) ≤ |10 ^ k| := by
      rw [abs_of_pos hpos]
      calc (2 : ℚ) ^ (-1022 : ℤ) ≤ 2 ^ (-100 : ℤ) := zpow_le_zpow_right₀ (by norm_num) (by norm_num)
        _ ≤ 10 ^ (-30 : ℤ) := by norm_num
        _ ≤ 10 ^ k := zpow_le_zpow_right₀ (by norm_num) hlow
    have herror := abs_nearest_sub_le_of_le hnormal
    rw [abs_of_pos hpos] at herror
    refine ⟨_, value?_powerOfTen (by omega) hhigh, herror.trans ?_⟩
    exact div_le_div_of_nonneg_left hpos.le (by norm_num) (by norm_num)
  · have hlarge : powerOfTen k = Float.pow 10 (.ofInt k) := if_neg hhigh
    rw [hlarge]
    exact hpower (by omega)

/-! ## Spacings -/

theorem value?_half {x : Float} {v : ℚ} (hx : value? x = some v) :
    value? (x / 2) = some (nearest (v / 2)) := by
  have htwo : value? 2 = some 2 := value?_ofNat (by norm_num)
  have hlarge := abs_lt_tooLarge hx
  refine (div_rounds hx htwo (by norm_num)).value?_eq (abs_nearest_lt_tooLarge_of_le ?_)
  rw [abs_div, abs_two, div_le_iff₀ (by norm_num), ← pow_succ]
  exact hlarge.le

/-- A spacing is half of a power of ten. -/
theorem spacing_accurate {k : ℤ} (hlow : -30 ≤ k) (hpower : 22 < k → PowerIsAccurate k) :
    ∃ s, value? (powerOfTen k / 2) = some s ∧ |2 * s - 10 ^ k| ≤ 10 ^ k / 2 ^ 51 := by
  have hpos : (0 : ℚ) < 10 ^ k := zpow_pos (by norm_num) k
  obtain ⟨v, hv, herror⟩ := powerOfTen_accurate hlow hpower
  obtain ⟨hvlow, hvhigh⟩ := abs_le.mp herror
  have hvpos : 0 < v := by
    have : (10 : ℚ) ^ k / 2 ^ 52 ≤ 10 ^ k / 2 := by
      exact div_le_div_of_nonneg_left hpos.le (by norm_num) (by norm_num)
    linarith
  have hnormal : (2 : ℚ) ^ (-1022 : ℤ) ≤ |v / 2| := by
    rw [abs_of_pos (by linarith)]
    calc (2 : ℚ) ^ (-1022 : ℤ) ≤ 2 ^ (-102 : ℤ) := zpow_le_zpow_right₀ (by norm_num) (by norm_num)
      _ ≤ 10 ^ (-30 : ℤ) / 4 := by norm_num
      _ ≤ 10 ^ k / 4 :=
        div_le_div_of_nonneg_right (zpow_le_zpow_right₀ (by norm_num) hlow) (by norm_num)
      _ ≤ v / 2 := by linarith
  have hhalf := abs_nearest_sub_le_of_le hnormal
  rw [abs_of_pos (by linarith : 0 < v / 2)] at hhalf
  obtain ⟨hlower, hupper⟩ := abs_le.mp hhalf
  refine ⟨_, value?_half hv, abs_le.mpr ⟨by linarith, by linarith⟩⟩

/-- Far below the closest place to the axis spacings are tiny. -/
theorem spacing_tiny {k : ℤ} (h : k ≤ -30) :
    ∃ s, value? (powerOfTen k / 2) = some s ∧ 0 ≤ s ∧ s ≤ 2 ^ (-100 : ℤ) := by
  have hhalf {v : ℚ} (hlow : 0 ≤ v) (hhigh : v ≤ 2 ^ (-99 : ℤ)) :
      0 ≤ nearest (v / 2) ∧ nearest (v / 2) ≤ 2 ^ (-100 : ℤ) := by
    have hdouble := nearest_zpow (n := -100) (by norm_num)
    refine ⟨nearest_nonneg (by linarith), ?_⟩
    rw [← hdouble]
    refine nearest_mono ?_
    norm_num at hhigh ⊢
    linarith
  by_cases hlow : -331 ≤ k
  · refine ⟨_, value?_half (value?_powerOfTen hlow (by omega)), hhalf ?_ ?_⟩
    · exact nearest_nonneg (zpow_pos (by norm_num) k).le
    · rw [← nearest_zpow (n := -99) (by norm_num)]
      refine nearest_mono ?_
      calc (10 : ℚ) ^ k ≤ 10 ^ (-30 : ℤ) := zpow_le_zpow_right₀ (by norm_num) h
        _ ≤ 2 ^ (-99 : ℤ) := by norm_num
  · exact ⟨_, value?_half (value?_powerOfTen_of_lt (by omega)), hhalf le_rfl (by positivity)⟩

namespace Graticule

variable {lo hi spacing : Float} {a b s : ℚ}

/-- A tiny spacing leaves no line away from the axis. -/
theorem not_mem_lines_of_tiny (hs : value? spacing = some s) (hnonneg : 0 ≤ s)
    (htiny : s ≤ 2 ^ (-100 : ℤ)) (x : Float) : x ∉ lines lo hi spacing := by
  intro h
  obtain ⟨k, hfirst, hlast, rfl, haxis⟩ := exists_of_mem_lines h
  have hk := abs_line_le hfirst hlast
  have hplace := place_rounds hs hk
  have hnumber : |nearest k| ≤ 2 ^ (63 : ℤ) := by
    rw [abs_nearest, ← nearest_zpow (n := 63) (by norm_num)]
    exact nearest_mono (by exact_mod_cast hk)
  have hsmall : |nearest k * s| ≤ 2 ^ (-37 : ℤ) := by
    rw [abs_mul, abs_of_nonneg hnonneg]
    calc |nearest k| * s ≤ 2 ^ (63 : ℤ) * 2 ^ (-100 : ℤ) :=
          mul_le_mul hnumber htiny hnonneg (by positivity)
      _ = 2 ^ (-37 : ℤ) := by norm_num
  have hnear : |nearest (nearest k * s)| ≤ 2 ^ (-37 : ℤ) := by
    rw [abs_nearest, ← nearest_zpow (n := -37) (by norm_num)]
    exact nearest_mono hsmall
  have hunit : (2 : ℚ) ^ (-37 : ℤ) < tooLarge := lt_tooLarge (by norm_num)
  have hvalue := hplace.value?_eq (hnear.trans_lt hunit)
  have hclose := (le_iff value?_closest (value?_abs hvalue)).mp haxis
  norm_num at hclose hnear
  linarith

theorem lines_eq_nil_of_tiny {k : ℤ} (h : k ≤ -30) (lo hi : Float) :
    lines lo hi (powerOfTen k / 2) = [] := by
  obtain ⟨s, hs, hnonneg, htiny⟩ := spacing_tiny h
  exact List.eq_nil_iff_forall_not_mem.mpr (not_mem_lines_of_tiny hs hnonneg htiny)

/-- A window with a tiny span has no lines, whatever their labels would be. -/
theorem ofWindow_lines_eq_nil {w : Window} (h : decadeOf w.xSpan ≤ -30) :
    (ofWindow w).vertical = [] ∧ (ofWindow w).horizontal = [] := by
  rw [ofWindow]
  split
  · exact ⟨rfl, rfl⟩
  · exact ⟨lines_eq_nil_of_tiny h _ _, lines_eq_nil_of_tiny h _ _⟩

/-! ## The distance of lines -/

/-- Where doubles are more than half a spacing apart, different ones are a quarter of it apart. -/
theorem quarter_le_of_quantum {x y : Float} {t u v : ℚ} (hx : value? x = some u)
    (hy : value? y = some v) (hu : u = nearest t) (hune : u ≠ 0) (hne : u ≠ v)
    (hquantum : s / 2 < quantum t) : s / 4 ≤ |u - v| := by
  have hnearest := quantum_le_quantum_nearest t
  rw [← hu] at hnearest
  have hgap := quantum_le_of_ne hx hy hune hne
  linarith

/-- Different lines are at least a quarter of a spacing apart. -/
theorem place_separated (hs : value? spacing = some s) (hpos : 0 < s) {k l : ℤ}
    (hk : |k| ≤ 2 ^ 63) (hl : |l| ≤ 2 ^ 63) {u v : ℚ} (hu : value? (place spacing k) = some u)
    (hv : value? (place spacing l) = some v) (hune : u ≠ 0) (hvne : v ≠ 0) (hne : u ≠ v) :
    s / 4 ≤ |u - v| := by
  have hunearest := (place_rounds hs hk).eq_nearest hu
  have hvnearest := (place_rounds hs hl).eq_nearest hv
  by_cases hularge : s / 2 < quantum (nearest k * s)
  · exact quarter_le_of_quantum hu hv hunearest hune hne hularge
  by_cases hvlarge : s / 2 < quantum (nearest l * s)
  · rw [abs_sub_comm]
    exact quarter_le_of_quantum hv hu hvnearest hvne hne.symm hvlarge
  -- the two numbers are different whole numbers, and each place is off by a quarter at most
  obtain ⟨m, hm⟩ := exists_nearest_eq_intCast k
  obtain ⟨n, hn⟩ := exists_nearest_eq_intCast l
  rw [hm] at hunearest hularge
  rw [hn] at hvnearest hvlarge
  have hmn : (m : ℚ) * s ≠ n * s := by
    intro heq
    exact hne (by rw [hunearest, hvnearest, heq])
  have hapart := le_abs_sub_of_multiples hpos rfl rfl hmn
  have huerror := abs_nearest_sub_le (m * s)
  have hverror := abs_nearest_sub_le (n * s)
  rw [← hunearest] at huerror
  rw [← hvnearest] at hverror
  have htriangle : |(m : ℚ) * s - n * s| ≤ |u - m * s| + |u - v| + |v - n * s| := by
    have hsplit : (m : ℚ) * s - n * s = -(u - m * s) + (u - v) + (v - n * s) := by ring
    rw [hsplit]
    refine (abs_add_le _ _).trans (add_le_add_left ?_ _)
    refine (abs_add_le _ _).trans ?_
    rw [abs_neg]
  linarith

/-! ## The ends of the doubles -/

/-- A line at an infinity is on the side of its number. -/
theorem side_of_infinity (hs : value? spacing = some s) (hpos : 0 < s) {k : ℤ} (hk : |k| ≤ 2 ^ 63)
    {t : Float.Model.UnpackedFloat.Sign} (h : (place spacing k).toModel.unpack = .infinity t) :
    k < 0 ∧ t = .negative ∨ 0 < k ∧ t = .positive := by
  obtain ⟨hlarge, hsign⟩ := (place_rounds hs hk).lt_abs_of_infinity h
  have hne : nearest k * s ≠ 0 := by
    intro hzero
    rw [hzero, abs_zero] at hlarge
    linarith [tooLarge_pos]
  rcases lt_trichotomy k 0 with hneg | rfl | hpos'
  · have hnumber : nearest k ≤ nearest 0 := nearest_mono (by exact_mod_cast hneg.le)
    rw [nearest_zero] at hnumber
    have hnegative : nearest k * s < 0 :=
      lt_of_le_of_ne (mul_nonpos_of_nonpos_of_nonneg hnumber hpos.le) hne
    rw [signOf, if_pos hnegative] at hsign
    exact Or.inl ⟨hneg, hsign.symm⟩
  · exact absurd (by rw [Int.cast_zero, nearest_zero, zero_mul]) hne
  · have hnumber : 0 ≤ nearest k := nearest_nonneg (by exact_mod_cast hpos'.le)
    rw [signOf, if_neg (not_lt.mpr (mul_nonneg hnumber hpos.le))] at hsign
    exact Or.inr ⟨hpos', hsign.symm⟩

/-- Lines at both infinities belong to an interval that is too long for a double. -/
theorem lines_one_infinity (ha : value? lo = some a) (hb : value? hi = some b)
    (hs : value? spacing = some s) (hpos : 0 < s) (hspan : (hi - lo).isFinite = true) {x y : Float}
    (hx : x ∈ lines lo hi spacing) (hy : y ∈ lines lo hi spacing) :
    ¬(x.toModel.unpack = .infinity .negative ∧ y.toModel.unpack = .infinity .positive) := by
  rintro ⟨hxinfinite, hyinfinite⟩
  have hcount := lastLine_sub_firstLine_le hx
  obtain ⟨k, hkfirst, hklast, rfl, -⟩ := exists_of_mem_lines hx
  obtain ⟨l, hlfirst, hllast, rfl, -⟩ := exists_of_mem_lines hy
  have hkword := abs_line_le hkfirst hklast
  have hlword := abs_line_le hlfirst hllast
  -- the numbers of the two lines have different signs, so both are small
  have hkneg : k < 0 := by simpa using side_of_infinity hs hpos hkword hxinfinite
  have hlpos : 0 < l := by simpa using side_of_infinity hs hpos hlword hyinfinite
  obtain ⟨hklarge, -⟩ := (place_rounds hs hkword).lt_abs_of_infinity hxinfinite
  obtain ⟨hllarge, -⟩ := (place_rounds hs hlword).lt_abs_of_infinity hyinfinite
  rw [nearest_intCast (by rw [abs_lt]; omega)] at hklarge hllarge
  have hkbound : -1000 ≤ (k : ℚ) := by exact_mod_cast (by omega : -1000 ≤ k)
  have hscaled := mul_le_mul_of_nonneg_right hkbound hpos.le
  rw [abs_of_neg (mul_neg_of_neg_of_pos (by exact_mod_cast hkneg) hpos)] at hklarge
  rw [abs_of_pos (mul_pos (by exact_mod_cast hlpos) hpos)] at hllarge
  have halow := sub_le_of_firstLine_le ha hs hpos (by linarith [abs_lt_tooLarge ha]) hkfirst
  have hbhigh := le_add_of_le_lastLine hb hs hpos (by linarith [abs_lt_tooLarge hb]) hllast
  have hlong : tooLarge ≤ b - a := by
    linarith [le_abs_self s, abs_lt_tooLarge hs]
  obtain ⟨v, hv⟩ := isFinite_iff.mp hspan
  have hinfinite : tooLarge ≤ nearest (b - a) := by
    rw [← nearest_tooLarge]
    exact nearest_mono hlong
  have hsmall := abs_lt_tooLarge hv
  rw [(sub_rounds hb ha).eq_nearest hv] at hsmall
  exact absurd hinfinite (not_le.mpr ((le_abs_self _).trans_lt hsmall))

end Graticule

end ImplicitPlot

import ImplicitPlot.Proofs.Number.Decimals
import ImplicitPlot.Plane.Graticule

/-
  The places of grid lines. A direction has at most 1001 lines, in order, none of them near the
  axis, and as long as the lines are numbered up to `2 ^ 52` none is more than a spacing away from
  the interval (`lines_spec`). Farther out the numbers of the lines are no longer those of the
  interval: quotients beyond the words of 64 bits all become the same word, and the one line that
  is left may be anywhere (`lines_not_within_spacing`).
-/
namespace ImplicitPlot

open Number

theorem Window.check_eq_ok_iff {w : Window} :
    w.check = .ok () ↔ isOpen w.xSpan = true ∧ isOpen w.ySpan = true := by
  rw [check]
  cases isOpen w.xSpan <;> cases isOpen w.ySpan <;> simp

namespace Graticule

variable {lo hi spacing : Float} {a b s : ℚ}

/-- The number of the first line that is not below an interval. -/
def firstLine (lo spacing : Float) : ℤ := signedWord 64 Exact.ceil (lo / spacing)

/-- The number of the last line that is not above an interval. -/
def lastLine (hi spacing : Float) : ℤ := signedWord 64 Exact.floor (hi / spacing)

/-- The place of a line. -/
def place (spacing : Float) (k : ℤ) : Float := Float.ofInt k * spacing

theorem lines_eq (lo hi spacing : Float) : lines lo hi spacing =
    if maxLines < lastLine hi spacing - firstLine lo spacing then []
    else ((List.range (lastLine hi spacing - firstLine lo spacing + 1).toNat).map
      fun (k : ℕ) => place spacing (firstLine lo spacing + k)).filter fun x => x.abs ≥ 1e-10 :=
  rfl

theorem lines_length_le (lo hi spacing : Float) : (lines lo hi spacing).length ≤ 1001 := by
  rw [lines_eq]
  split
  · exact Nat.zero_le _
  · rename_i hcount
    refine (List.length_filter_le _ _).trans ?_
    rw [List.length_map, List.length_range]
    rw [maxLines] at hcount
    omega

/-- A line has a number between the first and the last one, and is not at the axis. -/
theorem exists_of_mem_lines {x : Float} (h : x ∈ lines lo hi spacing) :
    ∃ k, firstLine lo spacing ≤ k ∧ k ≤ lastLine hi spacing ∧ x = place spacing k ∧
      x.abs ≥ 1e-10 := by
  rw [lines_eq] at h
  split at h
  · cases h
  · obtain ⟨hplace, haxis⟩ := List.mem_filter.mp h
    obtain ⟨k, hk, rfl⟩ := List.mem_map.mp hplace
    have hlt := List.mem_range.mp hk
    exact ⟨_, by omega, by omega, rfl, by simpa using haxis⟩

theorem lastLine_sub_firstLine_le {x : Float} (h : x ∈ lines lo hi spacing) :
    lastLine hi spacing - firstLine lo spacing ≤ 1000 := by
  rw [lines_eq] at h
  split at h
  · cases h
  · rename_i hcount
    rw [maxLines] at hcount
    omega

/-! ## Places in order -/

theorem firstLine_mem (lo spacing : Float) :
    -2 ^ 63 ≤ firstLine lo spacing ∧ firstLine lo spacing ≤ 2 ^ 63 - 1 :=
  signedWord_mem 64 Exact.ceil _

theorem lastLine_mem (hi spacing : Float) :
    -2 ^ 63 ≤ lastLine hi spacing ∧ lastLine hi spacing ≤ 2 ^ 63 - 1 :=
  signedWord_mem 64 Exact.floor _

/-- The numbers of lines are words of 64 bits. -/
theorem abs_line_le {k : ℤ} (hfirst : firstLine lo spacing ≤ k) (hlast : k ≤ lastLine hi spacing) :
    |k| ≤ 2 ^ 63 := by
  have hlow := (firstLine_mem lo spacing).1
  have hhigh := (lastLine_mem hi spacing).2
  rw [abs_le]
  omega

theorem place_rounds (hs : value? spacing = some s) {k : ℤ} (hk : |k| ≤ 2 ^ 63) :
    Rounds (nearest k * s) (place spacing k) :=
  mul_rounds (value?_ofInt hk) hs

theorem place_le (hs : value? spacing = some s) (hpos : 0 < s) {k l : ℤ} (hk : |k| ≤ 2 ^ 63)
    (hl : |l| ≤ 2 ^ 63) (h : k ≤ l) : place spacing k ≤ place spacing l := by
  have hnearest : nearest k ≤ nearest l := nearest_mono (by exact_mod_cast h)
  exact (place_rounds hs hk).le (place_rounds hs hl) (mul_le_mul_of_nonneg_right hnearest hpos.le)

theorem lines_pairwise_le (hs : value? spacing = some s) (hpos : 0 < s) :
    (lines lo hi spacing).Pairwise (· ≤ ·) := by
  rw [lines_eq]
  split
  · exact List.Pairwise.nil
  · have hline {n : ℕ}
        (hn : n ∈ List.range (lastLine hi spacing - firstLine lo spacing + 1).toNat) :
        |firstLine lo spacing + n| ≤ 2 ^ 63 := by
      have hlt := List.mem_range.mp hn
      exact abs_line_le (by omega : firstLine lo spacing ≤ _) (by omega : _ ≤ lastLine hi spacing)
    refine List.Pairwise.filter _ (List.pairwise_map.mpr ?_)
    refine List.pairwise_lt_range.imp_of_mem fun hm hn hlt => ?_
    exact place_le hs hpos (hline hm) (hline hn) (by omega)

/-! ## The axis -/

theorem value?_closest : value? 1e-10 = some (7737125245533627 / 2 ^ 86) := by
  have hunpack : (1e-10 : Float).toModel.unpack =
      .finite .positive 7737125245533627 (-86) (by norm_num) := rfl
  rw [value?_finite hunpack, factor_positive]
  norm_num

theorem le_abs_of_mem_lines {x : Float} {v : ℚ} (h : x ∈ lines lo hi spacing)
    (hx : value? x = some v) : 1 / 10 ^ 10 ≤ |v| := by
  obtain ⟨-, -, -, -, haxis⟩ := exists_of_mem_lines h
  have hle := (le_iff value?_closest (value?_abs hx)).mp haxis
  exact le_trans (by norm_num) hle

/-! ## Places within the interval -/

/-- Up to `2 ^ 52` the quotient that numbers a line is off by a quarter at most. -/
theorem value?_quotient (ha : value? lo = some a) (hs : value? spacing = some s) (hpos : 0 < s)
    (hnear : |a| ≤ 2 ^ 52 * s) :
    ∃ q, value? (lo / spacing) = some q ∧ |q| ≤ 2 ^ 53 ∧ |q * s - a| ≤ s / 4 := by
  have hsmall : |a / s| ≤ 2 ^ 52 := by
    rwa [abs_div, abs_of_pos hpos, div_le_iff₀ hpos]
  have hlarge : (2 : ℚ) ^ 52 ≤ 2 ^ 1023 := pow_le_pow_right₀ (by norm_num) (by norm_num)
  have herror := abs_nearest_sub_le_quarter hsmall
  refine ⟨nearest (a / s), (div_rounds ha hs hpos.ne').value?_eq
    (abs_nearest_lt_tooLarge_of_le (hsmall.trans hlarge)), ?_, ?_⟩
  · have htriangle := abs_sub_abs_le_abs_sub (nearest (a / s)) (a / s)
    linarith
  · have hscaled : nearest (a / s) * s - a = (nearest (a / s) - a / s) * s := by
      field_simp
    rw [hscaled, abs_mul, abs_of_pos hpos]
    have := mul_le_mul_of_nonneg_right herror hpos.le
    linarith

theorem sub_le_of_firstLine_le (ha : value? lo = some a) (hs : value? spacing = some s)
    (hpos : 0 < s) (hnear : |a| ≤ 2 ^ 52 * s) {k : ℤ} (hk : firstLine lo spacing ≤ k) :
    a - s / 4 ≤ k * s := by
  obtain ⟨q, hq, hsmall, herror⟩ := value?_quotient ha hs hpos hnear
  rw [firstLine, (signedWord_of_abs_le hq hsmall).1] at hk
  have hle := mul_le_mul_of_nonneg_right (Int.ceil_le.mp hk) hpos.le
  linarith [neg_le_of_abs_le herror]

theorem le_add_of_le_lastLine (hb : value? hi = some b) (hs : value? spacing = some s)
    (hpos : 0 < s) (hnear : |b| ≤ 2 ^ 52 * s) {k : ℤ} (hk : k ≤ lastLine hi spacing) :
    k * s ≤ b + s / 4 := by
  obtain ⟨q, hq, hsmall, herror⟩ := value?_quotient hb hs hpos hnear
  rw [lastLine, (signedWord_of_abs_le hq hsmall).2] at hk
  have hle := mul_le_mul_of_nonneg_right (Int.le_floor.mp hk) hpos.le
  linarith [le_of_abs_le herror]

/-- A line whose number is a double is placed with an error of less than a spacing. -/
theorem abs_nearest_mul_sub_le (hs : value? spacing = some s) (hpos : 0 < s) {k : ℤ}
    (hk : |(k : ℚ)| ≤ 2 ^ 52 + 1) : |nearest (k * s) - k * s| ≤ 3 / 4 * s := by
  obtain ⟨j, hj⟩ := exists_multiple hs
  have hmultiple : (k : ℚ) * s = ((k * j : ℤ) : ℚ) * 2 ^ (-1074 : ℤ) := by
    rw [hj, Int.cast_mul, mul_assoc]
  have herror := abs_nearest_sub_le_of_multiple hmultiple
  have hscaled := mul_le_mul_of_nonneg_right hk hpos.le
  rw [abs_mul, abs_of_pos hpos] at herror
  linarith

/-- As long as the lines are numbered up to `2 ^ 52` they are not more than a spacing away from
the interval. -/
theorem mem_lines_within (ha : value? lo = some a) (hb : value? hi = some b)
    (hs : value? spacing = some s) (hpos : 0 < s) (hanear : |a| ≤ 2 ^ 52 * s)
    (hbnear : |b| ≤ 2 ^ 52 * s) (hafinite : |a| + s < tooLarge) (hbfinite : |b| + s < tooLarge)
    {x : Float} (h : x ∈ lines lo hi spacing) :
    ∃ v, value? x = some v ∧ a - s ≤ v ∧ v ≤ b + s := by
  obtain ⟨k, hfirst, hlast, rfl, -⟩ := exists_of_mem_lines h
  have hlow := sub_le_of_firstLine_le ha hs hpos hanear hfirst
  have hhigh := le_add_of_le_lastLine hb hs hpos hbnear hlast
  have hk : |(k : ℚ)| ≤ 2 ^ 52 + 1 := by
    rw [← mul_le_mul_iff_left₀ hpos, ← abs_of_pos hpos, ← abs_mul, abs_of_pos hpos, abs_le]
    constructor <;> linarith [neg_abs_le a, le_abs_self b]
  have herror := abs_le.mp (abs_nearest_mul_sub_le hs hpos hk)
  have hexact : nearest k = k := nearest_intCast (by
    have hk' : |k| ≤ 2 ^ 52 + 1 := by exact_mod_cast hk
    omega)
  have hrounds := place_rounds hs (abs_line_le hfirst hlast)
  rw [hexact] at hrounds
  refine ⟨nearest (k * s), hrounds.value?_eq ?_, by linarith, by linarith⟩
  rw [abs_lt]
  constructor <;> linarith [neg_abs_le a, le_abs_self b]

/-- A direction has at most 1001 lines, in order and away from the axis. As long as they are
numbered up to `2 ^ 52` and are not at the end of the doubles, they are not more than a spacing
away from the interval. -/
theorem lines_spec (ha : value? lo = some a) (hb : value? hi = some b)
    (hs : value? spacing = some s) (hpos : 0 < s) :
    (lines lo hi spacing).length ≤ 1001 ∧ (lines lo hi spacing).Pairwise (· ≤ ·) ∧
      (∀ x ∈ lines lo hi spacing, x.abs ≥ 1e-10 ∧ ∀ v, value? x = some v → 1 / 10 ^ 10 ≤ |v|) ∧
      (|a| ≤ 2 ^ 52 * s → |b| ≤ 2 ^ 52 * s → |a| + s < tooLarge → |b| + s < tooLarge →
        ∀ x ∈ lines lo hi spacing, ∃ v, value? x = some v ∧ a - s ≤ v ∧ v ≤ b + s) := by
  refine ⟨lines_length_le lo hi spacing, lines_pairwise_le hs hpos, fun x hx => ⟨?_, ?_⟩, ?_⟩
  · obtain ⟨-, -, -, -, haxis⟩ := exists_of_mem_lines hx
    exact haxis
  · exact fun v hv => le_abs_of_mem_lines hx hv
  · intro hanear hbnear hafinite hbfinite x hx
    exact mem_lines_within ha hb hs hpos hanear hbnear hafinite hbfinite hx

theorem lines_spec_integers :
    (lines (-15) 15 5).length ≤ 1001 ∧ (lines (-15) 15 5).Pairwise (· ≤ ·) ∧
      (∀ x ∈ lines (-15) 15 5, x.abs ≥ 1e-10 ∧ ∀ v, value? x = some v → 1 / 10 ^ 10 ≤ |v|) ∧
      ∀ x ∈ lines (-15) 15 5, ∃ v, value? x = some v ∧ -15 - 5 ≤ v ∧ v ≤ 15 + 5 := by
  have hfifteen : value? 15 = some 15 := value?_ofNat (by norm_num)
  have hfive : value? 5 = some 5 := value?_ofNat (by norm_num)
  have hlarge : (2 : ℚ) ^ 53 ≤ tooLarge := (lt_tooLarge le_rfl).le
  obtain ⟨hlength, hsorted, haxis, hwithin⟩ :=
    lines_spec (value?_neg hfifteen) hfifteen hfive (by norm_num)
  refine ⟨hlength, hsorted, haxis, hwithin (by norm_num) (by norm_num) ?_ ?_⟩
  · exact lt_of_lt_of_le (by norm_num) hlarge
  · exact lt_of_lt_of_le (by norm_num) hlarge

/-- A window so far from the axis that the quotients of its bounds are not words. -/
def farWindow : Window := ⟨0, 1, 1e30, 2e30⟩

theorem lines_not_within_spacing :
    farWindow.check = .ok () ∧ ∃ a b s, value? farWindow.yMin = some a ∧
      value? farWindow.yMax = some b ∧ value? (ofWindow farWindow).spacing = some s ∧
      a ≤ b ∧ 0 < s ∧
      ¬∀ x ∈ (ofWindow farWindow).horizontal, ∃ v, value? x = some v ∧ a - s ≤ v ∧ v ≤ b + s := by
  have hlow : Exact.ofFloat? farWindow.yMin = some ⟨false, 7105427357601002, 47⟩ := by
    decide +kernel
  have hhigh : Exact.ofFloat? farWindow.yMax = some ⟨false, 7105427357601002, 48⟩ := by
    decide +kernel
  have hspacing : Exact.ofFloat? (ofWindow farWindow).spacing = some ⟨false, 2 ^ 52, -53⟩ := by
    decide +kernel
  have hline : (ofWindow farWindow).horizontal.map Exact.ofFloat? =
      [some ⟨false, 2 ^ 52, 10⟩] := by
    decide +kernel
  refine ⟨Window.check_eq_ok_iff.mpr ⟨by decide +kernel, by decide +kernel⟩, _, _, _,
    value?_of_exact hlow, value?_of_exact hhigh, value?_of_exact hspacing, ?_, ?_, ?_⟩
  · rw [Exact.value_eq, Exact.value_eq]
    norm_num
  · rw [Exact.value_eq]
    norm_num
  · intro hwithin
    obtain ⟨x, hx⟩ := List.map_eq_singleton_iff.mp hline
    obtain ⟨v, hv, hnear, -⟩ := hwithin x (by rw [hx.1]; exact List.mem_singleton_self x)
    rw [value?_of_exact hx.2, Option.some_inj, Exact.value_eq] at hv
    rw [Exact.value_eq, Exact.value_eq, ← hv] at hnear
    norm_num at hnear

end Graticule

end ImplicitPlot

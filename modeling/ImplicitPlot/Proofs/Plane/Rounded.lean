import ImplicitPlot.Proofs.Plane.Labels

/-
  The number in a label. The label of a coordinate is a numeral in positions, or a numeral with an
  exponent if the coordinate is large or close to zero, and what it denotes is the exact value of the
  coordinate rounded once (`coordinateLabel_rounds`). Taking zeros from the end of a fraction leaves
  its value as it is, and takes nothing from a whole number; a rounding that carries to a new digit
  moves the exponent.

  A notation is a relation between a text and the number that it denotes (`PositionalNumeral`,
  `ExponentNumeral`), so that a label cannot be tidy and denote something else.
-/
namespace ImplicitPlot

open Number

/-! ## Notations -/

/-- The sign of a numeral. -/
def minus (negative : Bool) : List Char := if negative then ['-'] else []

/-- A number with a sign. -/
def signed (negative : Bool) (q : ℚ) : ℚ := if negative then -q else q

/-- A numeral in positions and its number: a whole number without zeros in front, and the digits
behind the point if there are any, the last of which is not zero. -/
inductive PositionalNumeral : List Char → ℚ → Prop where
  | intro (negative : Bool) (whole : ℕ) (fraction : List Char)
      (hfraction : ∀ c ∈ fraction, c.isDigit = true) (hlast : fraction.getLast? ≠ some '0') :
      PositionalNumeral
        (minus negative ++ (digits whole ++ if fraction = [] then [] else '.' :: fraction))
        (signed negative (pointed (digits whole) fraction 0).value)

/-- A numeral with an exponent and its number: a leading digit that is not zero, `places` digits
behind the point, and an exponent with its sign and at least two digits. -/
inductive ExponentNumeral (places : ℕ) : List Char → ℚ → Prop where
  | intro (negative : Bool) (lead : Char) (fraction power : List Char) (exponent : ℤ)
      (hlead : lead.isDigit = true ∧ lead ≠ '0')
      (hfraction : ∀ c ∈ fraction, c.isDigit = true) (hplaces : fraction.length = places)
      (hpower : ∀ c ∈ power, c.isDigit = true) (htwo : 2 ≤ power.length)
      (hexponent : ofDigits power = exponent.natAbs) :
      ExponentNumeral places
        (minus negative ++
          (lead :: '.' :: fraction ++ 'e' :: (if exponent < 0 then '-' else '+') :: power))
        (signed negative (pointed [lead] fraction exponent).value)

/-- A number rounded to units of a decimal place; a half goes to the even neighbour. -/
def roundedAt (place : ℤ) (q : ℚ) : ℚ := halfEven (q / 10 ^ place) * 10 ^ place

theorem roundedAt_neg (place : ℤ) (q : ℚ) : roundedAt place (-q) = -roundedAt place q := by
  rw [roundedAt, roundedAt, neg_div, halfEven_neg]
  push_cast
  ring

namespace Number.Exact

/-- The sign of a value is the sign of the rounded value. -/
theorem roundedAt_value (v : Exact) (place : ℤ) :
    roundedAt place v.value = signed v.negative (v.coefficient place * 10 ^ place) := by
  have hmagnitude : roundedAt place v.magnitude = v.coefficient place * 10 ^ place := by
    rw [roundedAt, ← coefficient_eq, Int.cast_natCast]
  rw [value_eq_magnitude, signed]
  split
  · rw [roundedAt_neg, hmagnitude]
  · exact hmagnitude

/-- The decade of a value is its decimal logarithm. -/
theorem decade_eq_log {v : Exact} (hv : 0 < v.mantissa) : v.decade = Int.log 10 |v.value| := by
  obtain ⟨hlow, hhigh⟩ := decade_bounds hv
  have hten : (10 : ℚ) = (10 : ℕ) := by norm_num
  have hpos : 0 < v.magnitude := (zpow_pos (by norm_num) _).trans_le hlow
  rw [hten] at hlow hhigh
  have hle := (Int.zpow_le_iff_le_log (by norm_num) hpos).mp hlow
  have hlt := (Int.lt_zpow_iff_log_lt (by norm_num) hpos).mp hhigh
  rw [abs_value]
  omega

end Number.Exact

/-! ## Labels in positions -/

theorem positionalNumeral_fixed (v : Exact) (places : ℕ) :
    PositionalNumeral (trimFraction (v.fixed places)) (roundedAt (-places) v.value) := by
  obtain ⟨whole, fraction, htext, hfraction, hlast, hvalue⟩ := exists_trimFraction_fixed v places
  have hcoefficient : v.coefficient (-places) = roundQuotient (v.num * tenTo places) v.den := by
    rw [Exact.coefficient, neg_neg, Int.toNat_natCast, Int.toNat_neg_natCast]
    exact congrArg _ (Nat.mul_one _)
  have hnumber : roundedAt (-places) v.value =
      signed v.negative (pointed (digits whole) fraction 0).value := by
    rw [hvalue, v.roundedAt_value, hcoefficient, zpow_neg, zpow_natCast, div_eq_mul_inv]
  rw [htext, hnumber]
  exact .intro v.negative whole fraction hfraction hlast

/-! ## Labels with an exponent -/

theorem paddedDigits_two_length (n : ℕ) : 2 ≤ (paddedDigits 2 n).length := by
  rw [paddedDigits, List.length_append, List.length_replicate]
  omega

theorem exponentNumeral_scientificLabel {v : Exact} (hv : 0 < v.mantissa) (places : ℕ) :
    ExponentNumeral places (scientificLabel places v)
      (roundedAt (Int.log 10 |v.value| - places) v.value) := by
  obtain ⟨hlow, hhigh⟩ := Exact.significand_bounds hv places
  obtain ⟨d, hd⟩ : ∃ d, v.significand places = d := ⟨_, rfl⟩
  rw [hd] at hlow hhigh
  obtain ⟨lead, fraction, hdigits⟩ := List.exists_cons_of_length_pos
    (digits_length_pos d.coefficient)
  have hall : ∀ c ∈ lead :: fraction, c.isDigit = true := fun c hc =>
    isDigit_of_mem_digits (hdigits ▸ hc)
  have hlength := digits_length_eq hlow hhigh
  rw [hdigits, List.length_cons, Nat.succ_inj] at hlength
  have hvalue : ofDigits (lead :: fraction) = d.coefficient := by rw [← hdigits, ofDigits_digits]
  -- with a zero in front the number would be too small for its length
  have hlead : lead ≠ '0' := by
    rintro rfl
    have hsmall := ofDigits_lt fun c hc => hall c (List.mem_cons_of_mem _ hc)
    rw [← List.singleton_append, ofDigits_append] at hvalue
    have hzero : ofDigits ['0'] = 0 := rfl
    rw [hzero, Nat.mul_zero, Nat.zero_add] at hvalue
    rw [hvalue, hlength] at hsmall
    omega
  have hpointed : pointed [lead] fraction (d.exponent + places) = d := by
    rw [pointed, List.singleton_append, hvalue, hlength, add_sub_cancel_right]
  have hnumber : roundedAt (Int.log 10 |v.value| - places) v.value =
      signed v.negative (pointed [lead] fraction (d.exponent + places)).value := by
    rw [hpointed, ← hd, Exact.significand_value hv, v.roundedAt_value, ← Exact.decade_eq_log hv]
    rfl
  have htext : scientificLabel places v = minus v.negative ++ (lead :: '.' :: fraction ++ 'e' ::
      (if d.exponent + places < 0 then '-' else '+') ::
        paddedDigits 2 (d.exponent + places).natAbs) := by
    rw [scientificLabel, hd]
    simp only [hdigits, List.append_assoc]
    rfl
  rw [htext, hnumber]
  exact .intro v.negative lead fraction _ _ ⟨hall lead List.mem_cons_self, hlead⟩
    (fun c hc => hall c (List.mem_cons_of_mem _ hc)) hlength
    (fun c hc => isDigit_of_mem_paddedDigits hc) (paddedDigits_two_length _)
    (ofDigits_paddedDigits _ _)

/-! ## The label of a coordinate -/

/-- Zero is not close to zero in this sense. -/
theorem isScientific_iff {x : Float} {q : ℚ} (hx : value? x = some q) :
    IsScientific x ↔ ¬(q = 0 ∨ 1e-4 < x.abs ∧ x.abs < 1e4) := by
  have habs := value?_abs hx
  have hzero : value? 0 = some 0 := value?_zero (s := .positive) rfl
  have hlarge : x.abs ≥ 1e4 ↔ ¬x.abs < 1e4 := by
    rw [ge_iff_le, le_iff Graticule.value?_largest habs, lt_iff habs Graticule.value?_largest,
      not_lt]
  have hsmall : x.abs ≤ 1e-4 ↔ ¬1e-4 < x.abs := by
    rw [le_iff habs Graticule.value?_smallest, lt_iff Graticule.value?_smallest habs, not_lt]
  have hnonzero : x.abs > 0 ↔ ¬q = 0 := by
    rw [gt_iff_lt, lt_iff hzero habs, abs_pos]
  have hlargest : x.abs ≥ 1e4 → ¬q = 0 := by
    intro hle
    have hbound := (le_iff Graticule.value?_largest habs).mp hle
    rintro rfl
    norm_num at hbound
  rw [IsScientific, hsmall, hnonzero]
  constructor
  · rintro (h | ⟨h, h'⟩)
    · rintro (hq | ⟨-, hlt⟩)
      · exact hlargest h hq
      · exact hlarge.mp h hlt
    · rintro (hq | ⟨hlt, -⟩)
      · exact h hq
      · exact h' hlt
  · intro h
    rw [not_or, not_and] at h
    by_cases hlt : 1e-4 < x.abs
    · exact Or.inl (hlarge.mpr (h.2 hlt))
    · exact Or.inr ⟨h.1, hlt⟩

/-- The label of a coordinate is a numeral for its exact value, rounded to `precision` digits behind
the point, or to one less but at least one behind the leading digit if it is large or close to
zero. -/
theorem coordinateLabel_rounds {x : Float} (hx : x.isFinite = true) (precision : ℕ) :
    ∃ q, value? x = some q ∧
      (q = 0 ∨ 1e-4 < x.abs ∧ x.abs < 1e4 →
        PositionalNumeral (coordinateLabel precision x).toList (roundedAt (-precision) q)) ∧
      (¬(q = 0 ∨ 1e-4 < x.abs ∧ x.abs < 1e4) →
        ExponentNumeral (max (precision - 1) 1) (coordinateLabel precision x).toList
          (roundedAt (Int.log 10 |q| - (max (precision - 1) 1 : ℕ)) q)) := by
  obtain ⟨q, hq⟩ := isFinite_iff.mp hx
  have hform := isScientific_iff hq
  obtain ⟨v, hv, rfl⟩ := Option.map_eq_some_iff.mp hq
  refine ⟨v.value, hq, ?_, ?_⟩
  · intro hmoderate
    obtain ⟨-, hlabel⟩ := (coordinateLabel_of_exact hv precision).resolve_left
      fun h => hform.mp h.1 hmoderate
    rw [hlabel, String.toList_ofList]
    exact positionalNumeral_fixed v precision
  · intro hscientific
    obtain ⟨-, hlabel⟩ := (coordinateLabel_of_exact hv precision).resolve_right
      fun h => h.1 (hform.mpr hscientific)
    have hmantissa : 0 < v.mantissa :=
      Exact.mantissa_pos_of_value_ne fun hzero => hscientific (Or.inl hzero)
    rw [hlabel, String.toList_ofList]
    exact exponentNumeral_scientificLabel hmantissa _

/-- A rounding that carries to a new digit: in positions, where a zero is left out, and with an
exponent. -/
theorem coordinateLabel_rounds_carry :
    (∃ q, value? 99.96 = some q ∧ PositionalNumeral "100".toList (roundedAt (-1) q)) ∧
      ∃ q, value? 99960 = some q ∧
        ExponentNumeral 2 "1.00e+05".toList (roundedAt (Int.log 10 |q| - 2) q) := by
  have hnear : coordinateLabel 1 99.96 = "100" := by decide +kernel
  have hlarge : coordinateLabel 3 99960 = "1.00e+05" := by decide +kernel
  obtain ⟨q, hq, hposition, -⟩ := coordinateLabel_rounds (x := 99.96) (by decide +kernel) 1
  obtain ⟨r, hr, -, hexponent⟩ := coordinateLabel_rounds (x := 99960) (by decide +kernel) 3
  refine ⟨⟨q, hq, ?_⟩, r, hr, ?_⟩
  · rw [← hnear]
    exact hposition (Or.inr (by decide +kernel))
  · rw [← hlarge]
    exact hexponent ((isScientific_iff hr).mp (Or.inl (by decide +kernel)))

end ImplicitPlot

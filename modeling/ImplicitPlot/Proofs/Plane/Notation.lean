import ImplicitPlot.Proofs.Number.Reading
import ImplicitPlot.Plane.Graticule

/-
  What the label of a coordinate says. A label is a sign and a numeral. Read back, a label with an
  exponent is the value rounded to digits behind the leading one (`readSigned?_scientificLabel`),
  and a label in positions is the value rounded to digits behind the point, also without the zeros
  at its end (`readSigned?_fixed`). The two notations are told apart by the letter of the exponent.
-/
namespace ImplicitPlot

open Number

/-- A sign and an unsigned number. -/
def readSigned? : List Char → Option (Bool × Decimal)
  | '-' :: cs => (readDecimal? cs).map (true, ·)
  | cs => (readDecimal? cs).map (false, ·)

theorem readSigned?_sign (v : Exact) {c : Char} (hc : c.isDigit = true) (cs : List Char) :
    readSigned? (v.sign ++ c :: cs) = (readDecimal? (c :: cs)).map (v.negative, ·) := by
  have hminus : c ≠ '-' := fun h => absurd hc (by rw [h]; decide)
  rw [Exact.sign]
  cases v.negative with
  | true => rfl
  | false =>
    show readSigned? (c :: cs) = _
    unfold readSigned?
    split
    · rename_i heq
      exact absurd (List.cons.inj heq).1 hminus
    · rfl

/-! ## Zeros at the end of a fraction -/

/-- Zeros at the end of a text are split off. -/
theorem exists_append_zeros (cs : List Char) :
    ∃ front n, cs = front ++ List.replicate n '0' ∧
      cs.reverse.dropWhile (· == '0') = front.reverse := by
  obtain ⟨zeros, hzeros⟩ : ∃ zeros, cs.reverse.takeWhile (· == '0') = zeros := ⟨_, rfl⟩
  obtain ⟨rest, hrest⟩ : ∃ rest, cs.reverse.dropWhile (· == '0') = rest := ⟨_, rfl⟩
  have hsplit : cs.reverse = zeros ++ rest := by
    rw [← hzeros, ← hrest, List.takeWhile_append_dropWhile]
  have hreplicate : zeros = List.replicate zeros.length '0' := by
    refine List.eq_replicate_of_mem fun c hc => ?_
    rw [← hzeros] at hc
    simpa using List.mem_takeWhile_imp hc
  refine ⟨rest.reverse, zeros.length, ?_, by rw [hrest, List.reverse_reverse]⟩
  rw [← List.reverse_reverse cs, hsplit, List.reverse_append, hreplicate, List.reverse_replicate,
    List.length_replicate]

theorem dropWhile_point_of_ne {c : Char} (h : c ≠ '.') (cs : List Char) :
    (c :: cs).dropWhile (· == '.') = c :: cs :=
  List.dropWhile_cons_of_neg (by rwa [beq_iff_eq])

/-- The zeros at the end of a fraction are left out, and so is a point with nothing behind it. -/
theorem trimFraction_append {body fraction : List Char} (hbody : '.' ∉ body)
    (hfraction : ∀ c ∈ fraction, c.isDigit = true) :
    ∃ front n, fraction = front ++ List.replicate n '0' ∧ front.getLast? ≠ some '0' ∧
      trimFraction (body ++ '.' :: fraction) =
        body ++ if front = [] then [] else '.' :: front := by
  obtain ⟨front, n, hfront, hdrop⟩ := exists_append_zeros fraction
  have hlast : front.getLast? ≠ some '0' := by
    intro hzero
    have hhead := List.head?_dropWhile_not (· == '0') fraction.reverse
    rw [hdrop, List.head?_reverse, hzero] at hhead
    cases hhead
  refine ⟨front, n, hfront, hlast, ?_⟩
  have hcontains : (body ++ '.' :: fraction).contains '.' = true := by simp
  have hreverse : (body ++ '.' :: fraction).reverse = fraction.reverse ++ '.' :: body.reverse := by
    simp
  rw [trimFraction, if_pos hcontains, hreverse, List.dropWhile_append, hdrop]
  cases hlast : front.reverse with
  | nil =>
    have hkept : body.reverse.dropWhile (· == '.') = body.reverse := by
      cases hreversed : body.reverse with
      | nil => rfl
      | cons c cs =>
        refine dropWhile_point_of_ne ?_ cs
        rintro rfl
        exact hbody (List.mem_reverse.mp (by rw [hreversed]; exact List.mem_cons_self))
    show ((('.' :: body.reverse).dropWhile (· == '0')).dropWhile (· == '.')).reverse = _
    rw [List.dropWhile_cons_of_neg (by decide), List.dropWhile_cons_of_pos (by decide), hkept,
      List.reverse_reverse, if_pos (List.reverse_eq_nil_iff.mp hlast), List.append_nil]
  | cons c rest =>
    have hmem : c ∈ front := List.mem_reverse.mp (by rw [hlast]; exact List.mem_cons_self)
    have hpoint : c ≠ '.' := by
      rintro rfl
      exact absurd (hfraction '.' (by rw [hfront]; exact List.mem_append_left _ hmem)) (by decide)
    show ((c :: (rest ++ '.' :: body.reverse)).dropWhile (· == '.')).reverse = _
    rw [dropWhile_point_of_ne hpoint, if_neg (List.ne_nil_of_mem hmem), ← List.cons_append, ← hlast]
    simp

/-! ## Positions -/

theorem eq_minus_or_isDigit_of_mem {v : Exact} {n : ℕ} {c : Char} (h : c ∈ v.sign ++ digits n) :
    c = '-' ∨ c.isDigit = true := by
  rcases List.mem_append.mp h with hsign | hdigit
  · rw [Exact.sign] at hsign
    split at hsign
    · exact Or.inl (List.mem_singleton.mp hsign)
    · cases hsign
  · exact Or.inr (isDigit_of_mem_digits hdigit)

theorem point_not_mem_body (v : Exact) (n : ℕ) : '.' ∉ v.sign ++ digits n := fun h =>
  absurd (eq_minus_or_isDigit_of_mem h) (by decide)

/-- A text of a sign and digits is read with the sign apart. -/
theorem readSigned?_digits (v : Exact) (n : ℕ) (cs : List Char) :
    readSigned? (v.sign ++ (digits n ++ cs)) =
      (readDecimal? (digits n ++ cs)).map (v.negative, ·) := by
  obtain ⟨c, ds, hds⟩ := List.exists_cons_of_length_pos (digits_length_pos n)
  have hc : c.isDigit = true := isDigit_of_mem_digits (by rw [hds]; exact List.mem_cons_self)
  rw [hds]
  exact readSigned?_sign v hc _

theorem digits_ne_nil (n : ℕ) : digits n ≠ [] := List.ne_nil_of_length_pos (digits_length_pos n)

/-- A label in positions is a whole number with its digits behind the point, the last of which is
no zero. -/
theorem exists_trimFraction_fixed (v : Exact) (places : ℕ) :
    ∃ whole fraction, trimFraction (v.fixed places) =
        v.sign ++ (digits whole ++ if fraction = [] then [] else '.' :: fraction) ∧
      (∀ c ∈ fraction, c.isDigit = true) ∧ fraction.getLast? ≠ some '0' ∧
      (pointed (digits whole) fraction 0).value =
        roundQuotient (v.num * tenTo places) v.den / 10 ^ places := by
  obtain ⟨n, hn⟩ : ∃ n, roundQuotient (v.num * tenTo places) v.den = n := ⟨_, rfl⟩
  rw [Exact.fixed, hn, tenTo_eq]
  split
  · rename_i hzero
    have hpoint : (v.sign ++ digits (n / 10 ^ places)).contains '.' = false := by
      simpa using point_not_mem_body v (n / 10 ^ places)
    refine ⟨n / 10 ^ places, [], ?_, (fun _ hc => nomatch hc), nofun, ?_⟩
    · rw [trimFraction, hpoint, if_pos rfl, List.append_nil]
      rfl
    · rw [pointed_value, ofDigits_digits, hzero]
      simp [ofDigits, Nat.ofDigitChars]
  · have hdigits : ∀ c ∈ paddedDigits places (n % 10 ^ places), c.isDigit = true := fun c hc =>
      isDigit_of_mem_paddedDigits hc
    obtain ⟨fraction, zeros, hfraction, hlast, htrim⟩ :=
      trimFraction_append (point_not_mem_body v (n / 10 ^ places)) hdigits
    have hvalue := pointed_units_value places n
    rw [hfraction, pointed_zeros_value] at hvalue
    exact ⟨n / 10 ^ places, fraction, htrim.trans (List.append_assoc _ _ _),
      fun c hc => hdigits c (by rw [hfraction]; exact List.mem_append_left _ hc), hlast, hvalue⟩

/-- It is read as the value rounded to its digits behind the point. -/
theorem readSigned?_fixed (v : Exact) (places : ℕ) :
    ∃ d, readSigned? (trimFraction (v.fixed places)) = some (v.negative, d) ∧
      d.value = roundQuotient (v.num * tenTo places) v.den / 10 ^ places := by
  obtain ⟨whole, fraction, htext, hfraction, -, hvalue⟩ := exists_trimFraction_fixed v places
  have hwhole : ∀ c ∈ digits whole, c.isDigit = true := fun c hc => isDigit_of_mem_digits hc
  refine ⟨pointed (digits whole) fraction 0, ?_, hvalue⟩
  rw [htext, readSigned?_digits]
  split
  · rename_i hempty
    rw [hempty, List.append_nil, readDecimal?_digits (digits_ne_nil _) hwhole]
    rfl
  · rw [readDecimal?_fraction (digits_ne_nil _) hwhole hfraction]
    rfl

/-! ## Exponents -/

/-- A label with an exponent is read as the value rounded to its digits. -/
theorem readSigned?_scientificLabel {v : Exact} (hv : 0 < v.mantissa) (places : ℕ) :
    readSigned? (scientificLabel places v) = some (v.negative, v.significand places) := by
  obtain ⟨hlow, hhigh⟩ := Exact.significand_bounds hv places
  obtain ⟨c, cs, hdigits⟩ := List.exists_cons_of_length_pos
    (digits_length_pos (v.significand places).coefficient)
  have hc : c.isDigit = true := isDigit_of_mem_digits (by rw [hdigits]; exact List.mem_cons_self)
  have hread := readDecimal?_scientific hlow hhigh hdigits
  rw [scientificLabel]
  simp only [hdigits, List.append_assoc, List.cons_append]
  rw [readSigned?_sign v hc, hread]
  rfl

/-- The two notations are told apart by the letter of the exponent. -/
theorem mem_scientificLabel (places : ℕ) (v : Exact) : 'e' ∈ scientificLabel places v := by
  rw [scientificLabel]
  exact List.mem_append_right _ List.mem_cons_self

theorem mem_of_mem_trimFraction {c : Char} {cs : List Char} (h : c ∈ trimFraction cs) : c ∈ cs := by
  rw [trimFraction] at h
  split at h
  · have hreverse := List.mem_reverse.mp h
    have hpoints := (List.dropWhile_sublist _).mem hreverse
    exact List.mem_reverse.mp ((List.dropWhile_sublist _).mem hpoints)
  · exact h

theorem not_mem_fixed (v : Exact) (places : ℕ) : 'e' ∉ trimFraction (v.fixed places) := by
  intro h
  have hbody (n : ℕ) : 'e' ∉ v.sign ++ digits n := fun h =>
    absurd (eq_minus_or_isDigit_of_mem h) (by decide)
  have hfixed := mem_of_mem_trimFraction h
  rw [Exact.fixed] at hfixed
  split at hfixed
  · exact hbody _ hfixed
  · rcases List.mem_append.mp hfixed with hwhole | hfraction
    · exact hbody _ hwhole
    · rcases List.mem_cons.mp hfraction with hpoint | hdigit
      · exact absurd hpoint (by decide)
      · exact absurd (isDigit_of_mem_paddedDigits hdigit) (by decide)

/-! ## Labels -/

/-- The coordinates that are written with an exponent. -/
def IsScientific (x : Float) : Prop := x.abs ≥ 1e4 ∨ x.abs > 0 ∧ x.abs ≤ 1e-4

theorem coordinateLabel_of_exact {x : Float} {v : Exact} (hx : Exact.ofFloat? x = some v)
    (precision : ℕ) :
    IsScientific x ∧ coordinateLabel precision x =
        .ofList (scientificLabel (max (precision - 1) 1) v) ∨
      ¬IsScientific x ∧ coordinateLabel precision x =
        .ofList (trimFraction (v.fixed precision)) := by
  have hform : (decide (x.abs ≥ 1e4) || (decide (x.abs > 0) && decide (x.abs ≤ 1e-4))) = true ↔
      IsScientific x := by
    rw [IsScientific, Bool.or_eq_true, Bool.and_eq_true, decide_eq_true_eq, decide_eq_true_eq,
      decide_eq_true_eq]
  have hlabel : coordinateLabel precision x =
      if (decide (x.abs ≥ 1e4) || (decide (x.abs > 0) && decide (x.abs ≤ 1e-4))) = true then
        .ofList (scientificLabel (max (precision - 1) 1) v)
      else .ofList (trimFraction (v.fixed precision)) := by
    rw [coordinateLabel, hx]
  by_cases h : IsScientific x
  · rw [if_pos (hform.mpr h)] at hlabel
    exact Or.inl ⟨h, hlabel⟩
  · rw [if_neg (mt hform.mp h)] at hlabel
    exact Or.inr ⟨h, hlabel⟩

/-- A coordinate without a value has no number in its label. -/
theorem coordinateLabel_of_none {x : Float} (hx : Exact.ofFloat? x = none) (precision : ℕ) :
    coordinateLabel precision x = "NaN" := by
  rw [coordinateLabel, hx]

section Pair

variable {x y : Float} {u v : Exact} {precision : ℕ}

/-- Labels are the same only in the same notation, for the same sign and the same rounded value. -/
theorem of_coordinateLabel_eq (hx : Exact.ofFloat? x = some u) (hy : Exact.ofFloat? y = some v)
    (hu : 0 < u.mantissa) (hv : 0 < v.mantissa)
    (h : coordinateLabel precision x = coordinateLabel precision y) :
    u.negative = v.negative ∧
      (IsScientific x ∧ IsScientific y ∧
          u.significand (max (precision - 1) 1) = v.significand (max (precision - 1) 1) ∨
        (roundQuotient (u.num * tenTo precision) u.den : ℚ) / 10 ^ precision =
          roundQuotient (v.num * tenTo precision) v.den / 10 ^ precision) := by
  rcases coordinateLabel_of_exact hx precision with ⟨hxform, hxlabel⟩ | ⟨-, hxlabel⟩ <;>
    rcases coordinateLabel_of_exact hy precision with ⟨hyform, hylabel⟩ | ⟨-, hylabel⟩ <;>
    rw [hxlabel, hylabel] at h <;>
    have htext := String.ofList_injective h
  · have hread := congrArg readSigned? htext
    rw [readSigned?_scientificLabel hu, readSigned?_scientificLabel hv, Option.some_inj,
      Prod.mk.injEq] at hread
    exact ⟨hread.1, Or.inl ⟨hxform, hyform, hread.2⟩⟩
  · exact absurd (htext ▸ mem_scientificLabel _ u) (not_mem_fixed v precision)
  · exact absurd (htext ▸ mem_scientificLabel _ v) (not_mem_fixed u precision)
  · obtain ⟨d, hd, hdvalue⟩ := readSigned?_fixed u precision
    obtain ⟨d', hd', hdvalue'⟩ := readSigned?_fixed v precision
    have hread := congrArg readSigned? htext
    rw [hd, hd', Option.some_inj, Prod.mk.injEq] at hread
    refine ⟨hread.1, Or.inr ?_⟩
    rw [← hdvalue, ← hdvalue', hread.2]

/-- With an exponent the sign and the digits are the whole label. -/
theorem coordinateLabel_eq_of_significand_eq (hx : Exact.ofFloat? x = some u)
    (hy : Exact.ofFloat? y = some v) (hxform : IsScientific x) (hyform : IsScientific y)
    (hsign : u.negative = v.negative)
    (hdigits : u.significand (max (precision - 1) 1) = v.significand (max (precision - 1) 1)) :
    coordinateLabel precision x = coordinateLabel precision y := by
  obtain ⟨-, hxlabel⟩ := (coordinateLabel_of_exact hx precision).resolve_right
    fun h => h.1 hxform
  obtain ⟨-, hylabel⟩ := (coordinateLabel_of_exact hy precision).resolve_right
    fun h => h.1 hyform
  rw [hxlabel, hylabel, scientificLabel, scientificLabel, Exact.sign, Exact.sign, hsign, hdigits]

/-- A number is never written as what is no number. -/
theorem coordinateLabel_ne_of_none (hx : Exact.ofFloat? x = some u) (hu : 0 < u.mantissa)
    (hy : Exact.ofFloat? y = none) : coordinateLabel precision x ≠ coordinateLabel precision y := by
  intro h
  have hword : readSigned? "NaN".toList = none := by decide
  rw [coordinateLabel_of_none hy] at h
  rcases coordinateLabel_of_exact hx precision with ⟨-, hlabel⟩ | ⟨-, hlabel⟩
  · rw [hlabel] at h
    rw [← h, String.toList_ofList, readSigned?_scientificLabel hu] at hword
    cases hword
  · obtain ⟨d, hd, -⟩ := readSigned?_fixed u precision
    rw [hlabel] at h
    rw [← h, String.toList_ofList, hd] at hword
    cases hword

end Pair

end ImplicitPlot

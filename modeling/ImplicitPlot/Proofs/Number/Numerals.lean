import ImplicitPlot.Number.Numeral
import Mathlib.Data.List.TakeDrop

/-
  Numerals that are read as a whole. Digits, digits with a fraction and digits with a fraction and
  an exponent are read as the decimals that they write (`readDecimal?_digits`,
  `readDecimal?_fraction`, `readDecimal?_exponent`).
-/
namespace ImplicitPlot.Number

theorem span_isDigit {ds : List Char} (hds : ∀ c ∈ ds, c.isDigit = true) (rest : List Char)
    (hrest : rest.span Char.isDigit = ([], rest)) :
    (ds ++ rest).span Char.isDigit = (ds, rest) := by
  rw [List.span_eq_takeWhile_dropWhile, Prod.mk.injEq] at hrest
  rw [List.span_eq_takeWhile_dropWhile, List.takeWhile_append_of_pos hds,
    List.dropWhile_append_of_pos hds, hrest.1, hrest.2, List.append_nil]

variable {ds es : List Char}

theorem readDecimal?_digits (hne : ds ≠ []) (hds : ∀ c ∈ ds, c.isDigit = true) :
    readDecimal? ds = some (pointed ds [] 0) := by
  have hspan := span_isDigit hds [] rfl
  rw [List.append_nil] at hspan
  unfold readDecimal?
  rw [hspan]
  dsimp only
  rw [List.isEmpty_eq_false_iff.mpr hne]
  rfl

theorem readDecimal?_fraction (hne : ds ≠ []) (hds : ∀ c ∈ ds, c.isDigit = true)
    (hes : ∀ c ∈ es, c.isDigit = true) :
    readDecimal? (ds ++ '.' :: es) = some (pointed ds es 0) := by
  have hwhole := span_isDigit hds ('.' :: es) rfl
  have hfraction := span_isDigit hes [] rfl
  rw [List.append_nil] at hfraction
  unfold readDecimal?
  simp only [hwhole, hfraction, List.isEmpty_eq_false_iff.mpr hne]
  rfl

theorem readDecimal?_exponent (hne : ds ≠ []) (hds : ∀ c ∈ ds, c.isDigit = true)
    (hes : ∀ c ∈ es, c.isDigit = true) (exponent : List Char) :
    readDecimal? (ds ++ '.' :: (es ++ 'e' :: exponent)) =
      (readExponent? exponent).map (pointed ds es) := by
  have hwhole := span_isDigit hds ('.' :: (es ++ 'e' :: exponent)) rfl
  have hfraction := span_isDigit hes ('e' :: exponent) rfl
  unfold readDecimal?
  simp only [hwhole, hfraction, List.isEmpty_eq_false_iff.mpr hne]
  rfl

end ImplicitPlot.Number

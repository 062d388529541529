import ImplicitPlot.Number.Decimal

/-
  Values written to a given number of digits, from their exact binary value; a half goes to the
  even neighbour. `fixedText` counts digits behind the point and `Exact.significand` digits
  behind the leading one. A negative value keeps its sign also where it is rounded to zero.
-/
namespace ImplicitPlot.Number

namespace Exact

/-- The sign that is written before the digits of a value. -/
def sign (v : Exact) : List Char := if v.negative then ['-'] else []

/-- A value in positions, with `places` digits behind the point. -/
def fixed (places : Nat) (v : Exact) : List Char :=
  let scaled := roundQuotient (v.num * tenTo places) v.den
  let whole := digits (scaled / tenTo places)
  if places = 0 then v.sign ++ whole
  else v.sign ++ whole ++ '.' :: paddedDigits places (scaled % tenTo places)

/-- A positive value rounded to `places` digits behind the leading one; the exponent is that of
the last digit. -/
def significand (places : Nat) (v : Exact) : Decimal :=
  let place := v.decade - places
  let coefficient := roundQuotient (v.num * tenTo (-place).toNat) (v.den * tenTo place.toNat)
  if coefficient < tenTo (places + 1) then ⟨coefficient, place⟩ else ⟨tenTo places, place + 1⟩

end Exact

/-- A double with `places` digits behind the point. -/
def fixedText (places : Nat) (x : Float) : String :=
  match Exact.ofFloat? x with
  | some v => .ofList (v.fixed places)
  | none => if x.isNaN then "NaN" else if x < 0 then "-inf" else "inf"

end ImplicitPlot.Number

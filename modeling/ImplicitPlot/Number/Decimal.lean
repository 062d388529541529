import ImplicitPlot.Number.Exact
import ImplicitPlot.Number.Digits

/-
  Decimals `digits · 10 ^ exponent`: the double nearest to one, one written out in positions,
  and the place of the leading digit of a positive quotient.
-/
namespace ImplicitPlot.Number

/-- The value `coefficient · 10 ^ exponent`. -/
structure Decimal where
  coefficient : Nat
  exponent : Int
  deriving DecidableEq, Repr

namespace Decimal

/-- The double nearest to a decimal. Beyond the doubles it is infinity or zero, which is decided
from the place of the leading digit, so that no huge power is computed. -/
def toFloat (d : Decimal) : Float :=
  let place := (Number.digits d.coefficient).length + d.exponent
  if d.coefficient = 0 ∨ place < -330 then 0.0
  else if 310 < place then 1.0 / 0.0
  else .ofScientific d.coefficient (d.exponent < 0) d.exponent.natAbs

/-- The decimal without zeros at the end of its coefficient. -/
def normalize (d : Decimal) : Decimal :=
  if d.coefficient ≠ 0 ∧ d.coefficient % 10 = 0 then
    normalize ⟨d.coefficient / 10, d.exponent + 1⟩
  else d
termination_by d.coefficient
decreasing_by
  rename_i h
  omega

/-- All digits in positions, with a point where there are digits behind it. -/
def positional (d : Decimal) : List Char :=
  if 0 ≤ d.exponent then
    Number.digits (d.coefficient * tenTo d.exponent.toNat)
  else
    let places := (-d.exponent).toNat
    Number.digits (d.coefficient / tenTo places) ++ '.' ::
      paddedDigits places (d.coefficient % tenTo places)

end Decimal

/-- The exponent of the largest power of ten that is not above `num / den`. -/
def decade (num den : Nat) : Int :=
  if den ≤ num then ((digits (num / den)).length : Int) - 1
  else -((digits ((den - 1) / num)).length : Int)

/-- The decade of a double's magnitude. -/
def Exact.decade (v : Exact) : Int := Number.decade v.num v.den

end ImplicitPlot.Number

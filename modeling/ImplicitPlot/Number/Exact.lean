import ImplicitPlot.Number.Power

/-
  The exact value of a finite double, and the integers near it.

  A finite double is `± mantissa · 2 ^ exponent`; `Exact` holds these three and every rounding
  here is one integer division of `num` by `den`, so nothing is rounded twice. `signedWord`
  is a rounding into the words of a given width: too large goes to the nearest bound and a
  value that is no number goes to zero.
-/
namespace ImplicitPlot.Number

/-- The value `± mantissa · 2 ^ exponent`. -/
structure Exact where
  negative : Bool
  mantissa : Nat
  exponent : Int
  deriving DecidableEq, Repr

namespace Exact

/-- The value of a double; none for the infinities and for what is no number. -/
def ofFloat? (x : Float) : Option Exact :=
  match x.toModel.unpack with
  | .finite sign mantissa exponent _ => some ⟨sign == .negative, mantissa, exponent⟩
  | .zero sign => some ⟨sign == .negative, 0, 0⟩
  | .infinity _ | .notANumber => none

/-- The magnitude is `num / den`; one of the two is free of the power of two. -/
def num (v : Exact) : Nat := v.mantissa * twoTo v.exponent.toNat

def den (v : Exact) : Nat := twoTo (-v.exponent).toNat

theorem den_pos (v : Exact) : 0 < v.den := twoTo_pos _

/-- The numerator with the sign of the value. -/
def signedNum (v : Exact) : Int := if v.negative then -v.num else v.num

/-- The largest integer that is not above the value. -/
def floor (v : Exact) : Int := v.signedNum / v.den

/-- The smallest integer that is not below the value. -/
def ceil (v : Exact) : Int := -(-v.signedNum / v.den)

/-- The nearest integer, a half going away from zero. -/
def round (v : Exact) : Int :=
  let nearest : Nat := (2 * v.num + v.den) / (2 * v.den)
  if v.negative then -nearest else nearest

end Exact

/-- The nearest integer between two bounds. -/
def saturate (lo hi i : Int) : Int := max lo (min hi i)

/-- A double as a signed word of `bits` bits, by one of the roundings of its exact value. -/
def signedWord (bits : Nat) (rounding : Exact → Int) (x : Float) : Int :=
  let size : Int := twoTo (bits - 1)
  let lo := -size
  let hi := size - 1
  match Exact.ofFloat? x with
  | some v => saturate lo hi (rounding v)
  | none => if x.isNaN then 0 else if x < 0 then lo else hi

theorem le_saturate {lo hi : Int} (i : Int) : lo ≤ saturate lo hi i := by
  simp only [saturate]; omega

theorem saturate_le {lo hi : Int} (h : lo ≤ hi) (i : Int) : saturate lo hi i ≤ hi := by
  simp only [saturate]; omega

theorem saturate_of_mem {lo hi i : Int} (hlo : lo ≤ i) (hhi : i ≤ hi) : saturate lo hi i = i := by
  simp only [saturate]; omega

end ImplicitPlot.Number

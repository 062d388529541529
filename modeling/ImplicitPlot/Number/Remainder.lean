import ImplicitPlot.Number.Exact

/-
  The remainder of a division of doubles whose quotient is cut toward zero. It is exact: both
  values are brought to one power of two and their mantissas are divided with remainder. The
  result has the sign of the dividend, also when it is zero.
-/
namespace ImplicitPlot.Number

/-- The double `± mantissa · 2 ^ exponent`, rounded to the nearest if it is none. -/
def ofExact (v : Exact) : Float :=
  let sign : Float.Model.UnpackedFloat.Sign := if v.negative then .negative else .positive
  if v.mantissa = 0 then .ofModel (.pack (.zero sign))
  else .ofModel (.pack (.round .binary64 sign v.mantissa v.exponent))

/-- What is left of `x` after the largest number of whole `y` toward zero. -/
def remainder (x y : Float) : Float :=
  match Exact.ofFloat? x, Exact.ofFloat? y with
  | none, _ => 0.0 / 0.0
  | some _, none => if y.isNaN then y else x
  | some a, some b =>
    if b.mantissa = 0 then 0.0 / 0.0
    else
      let exponent := min a.exponent b.exponent
      let dividend := a.mantissa * twoTo (a.exponent - exponent).toNat
      let divisor := b.mantissa * twoTo (b.exponent - exponent).toNat
      ofExact ⟨a.negative, dividend % divisor, exponent⟩

end ImplicitPlot.Number

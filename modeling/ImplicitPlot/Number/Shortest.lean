import ImplicitPlot.Number.Decimal

/-
  The shortest decimal that reads back as a double. The reals nearest to a double form an
  interval; its ends belong to it when the mantissa is even. For one digit, two digits and so on,
  the two neighbours of the value on that decimal grid are tried, and the first grid with a
  neighbour in the interval wins. Of two such neighbours the nearer one is taken, and of two
  equally near ones the larger.
-/
namespace ImplicitPlot.Number

namespace Exact

/-- The ends of the interval of reals nearest to a value, in quarters of its unit. Just above a
power of two the neighbour below is only half a unit away. -/
def lowerQuarters (v : Exact) : Nat :=
  if v.mantissa = twoTo 52 ∧ -1074 < v.exponent then 4 * v.mantissa - 1 else 4 * v.mantissa - 2

def upperQuarters (v : Exact) : Nat := 4 * v.mantissa + 2

/-- The nearer neighbour of the value among the multiples of `10 ^ place`, if it reads back. -/
def onGrid? (v : Exact) (place : Int) : Option Decimal :=
  -- `k` steps of the grid are `k * step` and `q` quarters are `q * quarter`
  let step := tenTo place.toNat * twoTo (2 - v.exponent).toNat
  let quarter := tenTo (-place).toNat * twoTo (v.exponent - 2).toNat
  let value := 4 * v.mantissa * quarter
  let readsBack (k : Nat) : Bool :=
    let lower := v.lowerQuarters * quarter
    let upper := v.upperQuarters * quarter
    if v.mantissa % 2 = 0 then lower ≤ k * step && k * step ≤ upper
    else lower < k * step && k * step < upper
  let below := value / step
  match readsBack below, readsBack (below + 1) with
  | true, true =>
    let down := value - below * step
    let up := (below + 1) * step - value
    some ⟨if down < up then below else below + 1, place⟩
  | true, false => some ⟨below, place⟩
  | false, true => some ⟨below + 1, place⟩
  | false, false => none

/-- The shortest decimal that reads back as a positive value. Seventeen digits are enough; past
them the value itself would be the answer. -/
def shortest (v : Exact) : Decimal :=
  let places := (List.range 17).map fun k => v.decade - (k : Nat)
  let all : Decimal := ⟨v.num * tenTo (-v.exponent).toNat / v.den, min v.exponent 0⟩
  ((places.findSome? v.onGrid?).getD all).normalize

end Exact

/-- A double in the fewest digits that read back, always in positions. -/
def shortestText (x : Float) : String :=
  match Exact.ofFloat? x with
  | some v =>
    let sign := if v.negative then "-" else ""
    if v.mantissa = 0 then sign ++ "0" else sign ++ .ofList v.shortest.positional
  | none => if x.isNaN then "NaN" else if x < 0 then "-inf" else "inf"

end ImplicitPlot.Number

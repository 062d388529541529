import ImplicitPlot.Plane.Window
import ImplicitPlot.Number.Places

/-
  Graticules: the grid lines of a window and their labels.

  The lines stand at the multiples of a spacing, half of the largest power of ten that is not
  above the horizontal span; the axes themselves are left out. The decade of the span is that of
  its decimal logarithm. It is found exactly, except where the span is so little below a power
  of ten that the rounded logarithm may reach it.

  Labels have three digits more behind the point than the spacing has, without zeros at the end;
  very large and very small values are written with an exponent.
-/
namespace ImplicitPlot

/-- Ten to a power. Up to the largest power of ten that is a double it is the nearest double. -/
def powerOfTen (k : Int) : Float :=
  if k ≤ 22 then Number.Decimal.toFloat ⟨1, k⟩ else Float.pow 10 (.ofInt k)

/-- The largest integer that is not above the decimal logarithm of a positive double. Only a
value within a `2 ^ 40`th of the next power of ten leaves it to the rounded logarithm. -/
def decadeOf (x : Float) : Int :=
  match Number.Exact.ofFloat? x with
  | none => 0
  | some v =>
    let k := v.decade
    -- compares `x` with `10 ^ (k + 1) * (1 - 2 ^ -40)`
    let next := v.den * Number.tenTo (k + 1).toNat
    let value := v.num * Number.tenTo (-(k + 1)).toNat
    if value * Number.twoTo 40 < next * (Number.twoTo 40 - 1) then k
    else Number.signedWord 64 Number.Exact.floor (Float.log10 x)

/-- Grid lines across a window. -/
structure Graticule where
  /-- The distance between neighbouring lines. -/
  spacing : Float
  /-- The number of digits behind the point in a label. -/
  precision : Nat
  /-- The places of the vertical lines. -/
  vertical : List Float
  /-- The places of the horizontal lines. -/
  horizontal : List Float

namespace Graticule

/-- A direction with more lines than this gets none. -/
def maxLines : Int := 1000

/-- The multiples of a spacing in an interval, without zero. -/
def lines (lo hi spacing : Float) : List Float :=
  let first := Number.signedWord 64 Number.Exact.ceil (lo / spacing)
  let last := Number.signedWord 64 Number.Exact.floor (hi / spacing)
  if maxLines < last - first then []
  else
    (List.range (last - first + 1).toNat).map (fun (k : Nat) => Float.ofInt (first + k) * spacing)
      |>.filter fun x => x.abs ≥ 1e-10

/-- The digits behind the point for lines half of `10 ^ k` apart: three more than the decimal
logarithm of that spacing, cut toward zero, leaves of them. In the lowest decade, `-324`, the
spacing is rounded to zero and its logarithm is infinite; computed in words of 64 bits the
difference overflows there. It does not here, and the 327 digits that come out belong to no line,
as a window with so small a span has none (`Graticule.ofWindow_lines_eq_nil`). -/
def precisionOf (k : Int) : Nat := (3 - if 0 < k then k - 1 else k).toNat

/-- The grid lines of a window; none if its horizontal span cannot be drawn. -/
def ofWindow (w : Window) : Graticule :=
  if !Window.isOpen w.xSpan then ⟨0, 0, [], []⟩
  else
    let k := decadeOf w.xSpan
    let spacing := powerOfTen k / 2
    ⟨spacing, precisionOf k, lines w.xMin w.xMax spacing, lines w.yMin w.yMax spacing⟩

end Graticule

/-! ## Labels -/

/-- Digits behind a point, without zeros at their end and without a point at the end. -/
def trimFraction (cs : List Char) : List Char :=
  if cs.contains '.' then
    ((cs.reverse.dropWhile (· == '0')).dropWhile (· == '.')).reverse
  else cs

/-- A value with an exponent: one digit, a point, `places` digits, and the exponent with its sign
and at least two digits. -/
def scientificLabel (places : Nat) (v : Number.Exact) : List Char :=
  let d := v.significand places
  let exponent := d.exponent + places
  let mantissa := match Number.digits d.coefficient with
    | c :: cs => c :: '.' :: cs
    | [] => []
  v.sign ++ mantissa ++ 'e' :: (if exponent < 0 then '-' else '+') ::
    Number.paddedDigits 2 exponent.natAbs

/-- How a coordinate is written. -/
def coordinateLabel (precision : Nat) (x : Float) : String :=
  match Number.Exact.ofFloat? x with
  | none => "NaN"
  | some v =>
    let magnitude := x.abs
    if magnitude ≥ 1e4 || (magnitude > 0 && magnitude ≤ 1e-4) then
      .ofList (scientificLabel (max (precision - 1) 1) v)
    else .ofList (trimFraction (v.fixed precision))

/-- The label of a line. -/
def Graticule.label (g : Graticule) (x : Float) : String := coordinateLabel g.precision x

end ImplicitPlot

import ImplicitPlot.Number.Exact

/-
  One cell of a lattice: the values at its four corners, and the pieces of contour in it.

  A corner counts as positive when its value is not below zero. Where all corners agree the
  contour does not cross the cell; otherwise it crosses each side whose ends differ, at the place
  where a line between the two values is zero, rounded to a pixel. In a saddle, where opposite
  corners agree and neighbours differ, all four sides are crossed and two pieces join them.
-/
namespace ImplicitPlot.Contour

/-- A place in the picture, in whole pixels. -/
structure Pixel where
  x : Int
  y : Int
  deriving DecidableEq, Repr

/-- A straight piece of contour. -/
structure Segment where
  start : Pixel
  stop : Pixel
  deriving DecidableEq, Repr

/-- The values at the corners of a cell. -/
structure Corners where
  topLeft : Float
  topRight : Float
  bottomLeft : Float
  bottomRight : Float

/-- A value on the positive side of a contour. -/
def isPositive (x : Float) : Bool := x ≥ 0

/-- The pixel, counted from the first end of a side of `size` pixels, at which values that run
from `a` to `b` are zero. -/
def crossing (a b : Float) (size : Int) : Int :=
  Number.signedWord 32 Number.Exact.round (a * .ofInt size / (a - b))

namespace Corners

/-- The signs of the corners as a number of four bits. -/
def pattern (c : Corners) : Nat :=
  (isPositive c.topLeft).toNat + 2 * (isPositive c.topRight).toNat +
    4 * (isPositive c.bottomLeft).toNat + 8 * (isPositive c.bottomRight).toNat

def allFinite (c : Corners) : Bool :=
  c.topLeft.isFinite && c.topRight.isFinite && c.bottomLeft.isFinite && c.bottomRight.isFinite

/-- Whether a contour passes through the cell: all values are finite and their signs differ. -/
def isCrossed (c : Corners) : Bool := c.allFinite && c.pattern != 0 && c.pattern != 15

/-- The crossings of the four sides of a cell with a corner at `o` and sides of `step` pixels. -/
def top (c : Corners) (o : Pixel) (step : Int) : Pixel :=
  ⟨o.x + crossing c.topLeft c.topRight step, o.y⟩

def bottom (c : Corners) (o : Pixel) (step : Int) : Pixel :=
  ⟨o.x + crossing c.bottomLeft c.bottomRight step, o.y + step⟩

def left (c : Corners) (o : Pixel) (step : Int) : Pixel :=
  ⟨o.x, o.y + crossing c.topLeft c.bottomLeft step⟩

def right (c : Corners) (o : Pixel) (step : Int) : Pixel :=
  ⟨o.x + step, o.y + crossing c.topRight c.bottomRight step⟩

/-- The pieces of contour in a cell. -/
def segments (c : Corners) (o : Pixel) (step : Int) : List Segment :=
  if !c.allFinite then []
  else
    let top := c.top o step
    let bottom := c.bottom o step
    let left := c.left o step
    let right := c.right o step
    match c.pattern with
    | 1 | 14 => [⟨top, left⟩]
    | 2 | 13 => [⟨top, right⟩]
    | 4 | 11 => [⟨bottom, left⟩]
    | 8 | 7 => [⟨bottom, right⟩]
    | 3 | 12 => [⟨left, right⟩]
    | 5 | 10 => [⟨top, bottom⟩]
    | 6 => [⟨top, right⟩, ⟨bottom, left⟩]
    | 9 => [⟨top, left⟩, ⟨bottom, right⟩]
    | _ => []

end Corners

end ImplicitPlot.Contour

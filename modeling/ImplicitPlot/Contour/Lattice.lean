import ImplicitPlot.Contour.Resolution
import ImplicitPlot.Contour.Corners
import ImplicitPlot.Plane.Canvas

/-
  Lattices: values at points that lie one fine step apart, row by row. A point that was not
  sampled yet holds a mark, the largest finite double, because infinite values and values that
  are no number can be results. A result that equals the mark counts as not sampled.

  Numbers of points are natural numbers without a bound. Counted in words of 32 bits they are the
  same as long as they fit (`Lattice.wordPointsAcross_eq`), and traces take those of their canvas
  to fit.
-/
namespace ImplicitPlot.Contour

/-- The mark of a point without a value. -/
def unsampled : Float := .ofBits 0x7fefffffffffffff

/-- Values in rows and columns. -/
structure Lattice where
  rows : Nat
  cols : Nat
  values : Array Float

namespace Lattice

def empty : Lattice := ⟨0, 0, #[]⟩

/-- The number of points that cover some pixels, with whole coarse cells between them. -/
def pointsAcross (r : Resolution) (pixels : Nat) : Nat :=
  let refinement := max r.refinement 1
  let coarse := max r.fineStep 1 * refinement
  (pixels + coarse - 1) / coarse * refinement + 1

/-- A lattice of some rows and columns without values. -/
def blank (rows cols : Nat) : Lattice := ⟨rows, cols, .replicate (rows * cols) unsampled⟩

/-- The lattice that covers a canvas, without values. Its last row and column may lie past the
edge of the canvas. -/
def covering (c : Canvas) (r : Resolution) : Lattice :=
  blank (pointsAcross r c.height) (pointsAcross r c.width)

/-- The lattice of the same shape without values. -/
def reset (l : Lattice) : Lattice := { l with values := l.values.map fun _ => unsampled }

def get (l : Lattice) (row col : Nat) : Float := l.values[row * l.cols + col]?.getD unsampled

def set (l : Lattice) (row col : Nat) (x : Float) : Lattice :=
  { l with values := l.values.setIfInBounds (row * l.cols + col) x }

def isSampled (l : Lattice) (row col : Nat) : Bool := l.get row col != unsampled

/-- The number of points with a value. -/
def sampledCount (l : Lattice) : Nat := l.values.countP (· != unsampled)

/-- The corners of the cell of `size` points from a point to the right and down. -/
def corners (l : Lattice) (row col size : Nat) : Corners :=
  ⟨l.get row col, l.get row (col + size), l.get (row + size) col, l.get (row + size) (col + size)⟩

end Lattice

end ImplicitPlot.Contour

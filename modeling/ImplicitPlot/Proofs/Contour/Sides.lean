import ImplicitPlot.Contour.Corners

/-
  The sides of a cell. Each segment of a cell joins two of its sides (`Corners.joins`), and a side
  is an end of a segment once if the values at its ends differ in sign and else never, in a saddle
  as in all other cells (`Corners.count_usedSides`). Where the contour crosses a side depends on
  the two values there and on the place of the side.
-/
namespace ImplicitPlot.Contour

inductive Side where
  | top
  | bottom
  | left
  | right
  deriving DecidableEq, Repr

namespace Side

/-- The side as the cell beyond it has it. -/
def opposite : Side → Side
  | top => bottom
  | bottom => top
  | left => right
  | right => left

/-- Whether the cell at the point `q` lies beyond a side of the cell at the point `p`. -/
def Beyond : Side → Nat × Nat → Nat × Nat → Prop
  | top, p, q => p = (q.1 + 1, q.2)
  | bottom, p, q => q = (p.1 + 1, p.2)
  | left, p, q => p = (q.1, q.2 + 1)
  | right, p, q => q = (p.1, p.2 + 1)

end Side

namespace Corners

/-- The values at the ends of a side, from left to right or from top to bottom. -/
def ends (c : Corners) : Side → Float × Float
  | .top => (c.topLeft, c.topRight)
  | .bottom => (c.bottomLeft, c.bottomRight)
  | .left => (c.topLeft, c.bottomLeft)
  | .right => (c.topRight, c.bottomRight)

/-- Whether the values at the ends of a side differ in sign. -/
def differsAlong (c : Corners) (side : Side) : Bool :=
  isPositive (c.ends side).1 != isPositive (c.ends side).2

/-- The crossing of a side. -/
def crossingAt (c : Corners) (o : Pixel) (step : Int) : Side → Pixel
  | .top => c.top o step
  | .bottom => c.bottom o step
  | .left => c.left o step
  | .right => c.right o step

/-- The sides that the segments of a cell with a pattern of signs join. -/
def joined : Nat → List (Side × Side)
  | 1 | 14 => [(.top, .left)]
  | 2 | 13 => [(.top, .right)]
  | 4 | 11 => [(.bottom, .left)]
  | 8 | 7 => [(.bottom, .right)]
  | 3 | 12 => [(.left, .right)]
  | 5 | 10 => [(.top, .bottom)]
  | 6 => [(.top, .right), (.bottom, .left)]
  | 9 => [(.top, .left), (.bottom, .right)]
  | _ => []

/-- The sides that the segments of a cell join. -/
def joins (c : Corners) : List (Side × Side) := if c.allFinite then joined c.pattern else []

/-- Every end of a segment is the crossing of the side that it is joined to. -/
theorem segments_eq_joins (c : Corners) (o : Pixel) (step : Int) :
    c.segments o step =
      c.joins.map fun (a, b) => ⟨c.crossingAt o step a, c.crossingAt o step b⟩ := by
  unfold segments joins
  cases c.allFinite with
  | false => rfl
  | true =>
    simp only [pattern]
    cases isPositive c.topLeft <;> cases isPositive c.topRight <;>
      cases isPositive c.bottomLeft <;> cases isPositive c.bottomRight <;> rfl

/-- Whatever the four signs are, each side is joined once if its two signs differ and else
never. -/
theorem count_joined (topLeft topRight bottomLeft bottomRight : Bool) (side : Side) :
    ((joined (topLeft.toNat + 2 * topRight.toNat + 4 * bottomLeft.toNat +
      8 * bottomRight.toNat)).flatMap fun (a, b) => [a, b]).count side =
        match side with
        | .top => (topLeft != topRight).toNat
        | .bottom => (bottomLeft != bottomRight).toNat
        | .left => (topLeft != bottomLeft).toNat
        | .right => (topRight != bottomRight).toNat := by
  cases side <;> revert topLeft topRight bottomLeft bottomRight <;> decide

/-- The sides at which segments of a cell end, one for each end. -/
def usedSides (c : Corners) : List Side := c.joins.flatMap fun (a, b) => [a, b]

/-- In a finite cell, a side is the end of one segment if its values differ in sign, and of none
if they do not. -/
theorem count_usedSides {c : Corners} (h : c.allFinite = true) (side : Side) :
    c.usedSides.count side = (c.differsAlong side).toNat := by
  unfold usedSides joins
  rw [h, if_pos rfl, pattern, count_joined]
  cases side <;> rfl

theorem mem_usedSides {c : Corners} (h : c.allFinite = true) {side : Side} :
    side ∈ c.usedSides ↔ c.differsAlong side = true := by
  rw [← List.count_pos_iff, count_usedSides h]
  cases c.differsAlong side <;> decide

/-- The pixels at which segments of a cell end on a side. -/
def endsOn (c : Corners) (o : Pixel) (step : Int) (side : Side) : List Pixel :=
  (c.usedSides.filter (· == side)).map (c.crossingAt o step)

theorem endsOn_eq {c : Corners} (h : c.allFinite = true) (o : Pixel) (step : Int) (side : Side) :
    c.endsOn o step side =
      if c.differsAlong side = true then [c.crossingAt o step side] else [] := by
  unfold endsOn
  rw [List.filter_beq, count_usedSides h, List.map_replicate]
  cases c.differsAlong side <;> rfl

end Corners

end ImplicitPlot.Contour

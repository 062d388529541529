import ImplicitPlot.Plane.Window

/-
  Canvases: a window of the plane on a rectangle of pixels. Pixels count to the right and down
  from the corner at the left and the top, the plane to the right and up.
-/
namespace ImplicitPlot

/-- A point of the plane, or of the canvas in pixels. -/
structure Point where
  x : Float
  y : Float

/-- A window and the size of its picture in pixels. -/
structure Canvas where
  window : Window
  width : Nat
  height : Nat

namespace Canvas

/-- The point of the plane at a place of the picture. -/
def toPlane (c : Canvas) (p : Point) : Point :=
  ⟨c.window.xMin + p.x * c.window.xSpan / .ofNat c.width,
   c.window.yMax - p.y * c.window.ySpan / .ofNat c.height⟩

/-- The place in the picture of a point of the plane. -/
def toPicture (c : Canvas) (p : Point) : Point :=
  ⟨(p.x - c.window.xMin) * .ofNat c.width / c.window.xSpan,
   (c.window.yMax - p.y) * .ofNat c.height / c.window.ySpan⟩

end Canvas

end ImplicitPlot

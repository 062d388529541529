import ImplicitPlot.Plane.Canvas
import ImplicitPlot.Plane.Graticule
import ImplicitPlot.Contour.Corners

/-
  Drawings as SVG text: a white rectangle and a list of marks on it, each a few lines of markup.

  The segments of one relation stand in a group with the relation's text as its title. Titles are
  escaped, so they cannot be taken for markup. The grid has three groups: its lines, the axes
  where they are in the picture, and the labels, which stay in the picture beside an axis that
  is not.
-/
namespace ImplicitPlot

open Number Contour

namespace Drawing

/-- The colours of relations, used in turn. -/
def palette : List String :=
  ["#d62728", "#1f77b4", "#2ca02c", "#9467bd", "#ff7f0e", "#17becf", "#8c564b"]

/-- The colour of the relation with a number. -/
def colour (i : Nat) : String := palette.getD (i % palette.length) ""

/-- A character of text as markup. -/
def escapeChar : Char → List Char
  | '&' => "&amp;".toList
  | '<' => "&lt;".toList
  | '>' => "&gt;".toList
  | '"' => "&quot;".toList
  | c => [c]

/-- Text as markup. -/
def escape (text : String) : String := .ofList (text.toList.flatMap escapeChar)

/-- One thing in a drawing. -/
inductive Mark where
  /-- The grid lines of a canvas, with its axes and labels. -/
  | grid (canvas : Canvas)
  /-- The start of a relation's group. -/
  | opening (title colour : String)
  | segment (s : Segment)
  /-- The end of a relation's group. -/
  | closing

/-! ## The grid -/

/-- A coordinate in the picture. -/
def place (x : Float) : String := fixedText 1 x

/-- The smaller and the larger of two values; a value that is no number does not count. -/
def lesser (a b : Float) : Float := if a.isNaN then b else if b < a then b else a

def greater (a b : Float) : Float := if a.isNaN then b else if a < b then b else a

/-- A line from the top to the bottom, and one from the left to the right. -/
def verticalLine (x : Float) (height : Nat) : String :=
  "<line x1=\"" ++ place x ++ "\" y1=\"0\" x2=\"" ++ place x ++ "\" y2=\"" ++ natText height ++
    "\"/>\n"

def horizontalLine (y : Float) (width : Nat) : String :=
  "<line x1=\"0\" y1=\"" ++ place y ++ "\" x2=\"" ++ natText width ++ "\" y2=\"" ++ place y ++
    "\"/>\n"

def label (x y : Float) (text : String) : String :=
  "<text x=\"" ++ place x ++ "\" y=\"" ++ place y ++ "\">" ++ text ++ "</text>\n"

/-- Whether a coordinate is in a picture of some size. -/
def isInside (x : Float) (size : Nat) : Bool := 0 ≤ x && x ≤ Float.ofNat size

/-- The grid of a canvas in a picture of some size. -/
def gridText (canvas : Canvas) (width height : Nat) : String :=
  let g := Graticule.ofWindow canvas.window
  let xOf (x : Float) := (canvas.toPicture ⟨x, 0⟩).x
  let yOf (y : Float) := (canvas.toPicture ⟨0, y⟩).y
  let origin := canvas.toPicture ⟨0, 0⟩
  let labelY := greater (lesser origin.y (.ofNat height - 2)) 12
  let labelX := greater (lesser origin.x (.ofNat width - 40)) 2
  "<g stroke=\"#e0e0e0\" stroke-width=\"1\">\n" ++
    String.join (g.vertical.map fun x => verticalLine (xOf x) height) ++
    String.join (g.horizontal.map fun y => horizontalLine (yOf y) width) ++
    "</g>\n" ++
    "<g stroke=\"#000000\" stroke-width=\"1\">\n" ++
    (if isInside origin.x width then verticalLine origin.x height else "") ++
    (if isInside origin.y height then horizontalLine origin.y width else "") ++
    "</g>\n" ++
    "<g font-family=\"sans-serif\" font-size=\"10\" fill=\"#606060\">\n" ++
    String.join (g.vertical.map fun x => label (xOf x + 2) (labelY - 2) (g.label x)) ++
    String.join (g.horizontal.map fun y => label (labelX + 2) (yOf y - 2) (g.label y)) ++
    "</g>\n"

/-! ## Documents -/

def segmentText (s : Segment) : String :=
  "<line x1=\"" ++ intText s.start.x ++ "\" y1=\"" ++ intText s.start.y ++ "\" x2=\"" ++
    intText s.stop.x ++ "\" y2=\"" ++ intText s.stop.y ++ "\"/>\n"

/-- The markup of a mark in a picture of some size. -/
def Mark.text (width height : Nat) : Mark → String
  | grid canvas => gridText canvas width height
  | opening title colour =>
    "<g stroke=\"" ++ colour ++ "\" stroke-width=\"2\" stroke-linecap=\"round\">\n<title>" ++
      escape title ++ "</title>\n"
  | segment s => segmentText s
  | closing => "</g>\n"

end Drawing

/-- Marks on a picture of some size in pixels. -/
structure Drawing where
  width : Nat
  height : Nat
  marks : List Drawing.Mark

/-- The whole document. -/
def Drawing.text (d : Drawing) : String :=
  let w := natText d.width
  let h := natText d.height
  "<svg xmlns=\"http://www.w3.org/2000/svg\" width=\"" ++ w ++ "\" height=\"" ++ h ++
    "\" viewBox=\"0 0 " ++ w ++ " " ++ h ++ "\">\n<rect width=\"" ++ w ++ "\" height=\"" ++ h ++
    "\" fill=\"#ffffff\"/>\n" ++
    String.join (d.marks.map (Mark.text d.width d.height)) ++ "</svg>\n"

end ImplicitPlot

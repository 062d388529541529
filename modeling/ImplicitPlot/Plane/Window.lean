import ImplicitPlot.Plane.Setting
import ImplicitPlot.Number.Numeral
import ImplicitPlot.Text.Blank

/-
  Windows: the part of the plane that a plot shows, and its text form `xmin,xmax,ymin,ymax`.
-/
namespace ImplicitPlot

/-- A rectangle of the plane. -/
structure Window where
  xMin : Float
  xMax : Float
  yMin : Float
  yMax : Float

namespace Window

/-- The window of a plot that asks for none. -/
def default : Window := ⟨-15, 15, -10, 10⟩

def xSpan (w : Window) : Float := w.xMax - w.xMin

def ySpan (w : Window) : Float := w.yMax - w.yMin

/-- A span that can be drawn. -/
def isOpen (span : Float) : Bool := span.isFinite && span > 0

/-- Both spans must be finite and positive. -/
def check (w : Window) : Except SettingError Unit :=
  if !isOpen w.xSpan then .error (.emptyX w.xMin w.xMax)
  else if !isOpen w.ySpan then .error (.emptyY w.yMin w.yMax)
  else .ok ()

/-- Why a text is no window. -/
inductive TextError where
  | notNumber (part : String)
  | count (parts : Nat)
  | setting (e : SettingError)

def TextError.message : TextError → String
  | notNumber part =>
    let reason := if part.isEmpty then "cannot parse float from empty string"
      else "invalid float literal"
    "'" ++ part ++ "': " ++ reason
  | count parts =>
    "expected XMIN,XMAX,YMIN,YMAX, got " ++ Number.natText parts ++ " value(s)"
  | setting e => e.message

/-- A bound, with white space around it. -/
def readBound (part : String) : Except TextError Float :=
  let part := Text.trimBlanks part.toList
  match Number.readFloat? part with
  | some x => .ok x
  | none => .error (.notNumber (.ofList part))

/-- Four bounds between commas, which make a window that can be drawn. -/
def ofText (text : String) : Except TextError Window := do
  let bounds ← (text.splitOn ",").mapM readBound
  match bounds with
  | [xMin, xMax, yMin, yMax] =>
    let w : Window := ⟨xMin, xMax, yMin, yMax⟩
    w.check.mapError .setting
    return w
  | _ => throw (.count bounds.length)

end Window

end ImplicitPlot

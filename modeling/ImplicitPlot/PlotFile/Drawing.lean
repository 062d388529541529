import ImplicitPlot.PlotFile.Basic
import ImplicitPlot.Contour.Tracer
import ImplicitPlot.Drawing.Svg
import ImplicitPlot.Symbols.Standard

/-
  The drawing of a plot: the grid, if it is wanted, and a group for each relation.

  Relations that cannot be compiled are left out and do not use up a colour. One tracer draws
  all the others in turn.
-/
namespace ImplicitPlot.PlotFile

open Symbols

/-- Why a plot was not drawn. -/
inductive Failure where
  | setting (e : SettingError)
  | noRelations
  | constant (e : RegistrationError)
  | noAxes
  /-- Not one of so many relations could be compiled. -/
  | noneCompiled (count : Nat)

def Failure.message : Failure → String
  | setting e => e.message
  | noRelations => "no relations given"
  | constant e => e.message
  | noAxes => "environment has no x/y axes"
  | noneCompiled count => "none of " ++ Number.natText count ++ " relation(s) compiled"

/-- The valid relations among some texts. -/
def compileAll (V : Vocabulary) (texts : List String) : List Relation :=
  texts.filterMap fun text => (Relation.ofText? V text).toOption

/-- The groups of relations; the first of them is the relation with number `i`. -/
def groups (canvas : Canvas) (i : Nat) (t : Contour.Tracer) (σ : Store) :
    List Relation → List Drawing.Mark
  | [] => []
  | r :: rs =>
    let trace := t.trace σ r canvas
    .opening r.text (Drawing.colour i) :: (trace.segments.toList.map .segment ++
      .closing :: groups canvas (i + 1) trace.tracer trace.store rs)

/-- Draw a plot with the names of the standard vocabulary. -/
def draw (p : PlotFile) (withGrid : Bool) : Except Failure Drawing := do
  p.check.mapError .setting
  if p.relations.isEmpty then throw .noRelations
  let (V, σ) := Vocabulary.standard .empty
  let (registered, V, σ) := p.register V σ
  registered.mapError .constant
  let some axes := V.axes? | throw .noAxes
  let relations := compileAll V p.relations
  if relations.isEmpty then throw (.noneCompiled p.relations.length)
  let tracer ← (Contour.Tracer.new axes p.resolution).mapError .setting
  let grid := if withGrid then [Drawing.Mark.grid p.canvas] else []
  return ⟨p.width, p.height, grid ++ groups p.canvas 0 tracer σ relations⟩

end ImplicitPlot.PlotFile

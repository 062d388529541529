import ImplicitPlot.Contour.Lattice
import ImplicitPlot.Relation.Basic

/-
  Tracing a relation: the pieces of the curve where its difference is zero.

  A trace samples the coarse points of a lattice first. Then it looks at each coarse cell, row by
  row; where the signs of the corners differ it samples the fine points of the cell that have no
  value yet and marches through the fine cells in it. Points on the border of two such cells are
  sampled once. A curve that enters and leaves a coarse cell through one side is not seen.

  A tracer keeps the lattice, the machine and the tally of its last trace; a trace starts with
  a blank lattice and an empty tally, so nothing of the last one shows in it.
-/
namespace ImplicitPlot.Contour

open Symbols Expression

/-- The work of one trace. -/
structure Tally where
  segments : Nat
  evaluations : Nat
  refinedCells : Nat
  deriving DecidableEq, Repr

def Tally.zero : Tally := ⟨0, 0, 0⟩

/-- Why a relation was not traced. -/
inductive TraceError where
  | invalidRelation
  | evaluation (e : EvalError)
  deriving DecidableEq, Repr

def TraceError.message : TraceError → String
  | invalidRelation => "relation is not valid"
  | evaluation e => "evaluation failed: " ++ e.message

/-- The multiples of `step` below `bound`, in increasing order. -/
def multiples (step bound : Nat) : List Nat := .range' 0 ((bound + step - 1) / step) step

/-- What a trace works on. -/
structure Job where
  axes : Vocabulary.Axes
  program : Program
  canvas : Canvas
  resolution : Resolution

/-- What a trace changes. -/
structure Frame where
  store : Store
  machine : Machine
  lattice : Lattice
  tally : Tally
  drawn : Array Segment

/-- A part of a trace; what was done before a failure stands. -/
abbrev Pass := EStateM EvalError Frame Unit

namespace Job

/-- The point of the plane at a point of the lattice. -/
def pointAt (j : Job) (row col : Nat) : Point :=
  j.canvas.toPlane ⟨.ofNat (col * j.resolution.fineStep), .ofNat (row * j.resolution.fineStep)⟩

/-- Evaluate the program with the axes at a point of the lattice, and enter its value. -/
def sample (j : Job) (row col : Nat) : Pass := fun ⟨store, machine, lattice, tally, drawn⟩ =>
  let point := j.pointAt row col
  let store := j.axes.set store point.x point.y
  match machine.evaluate store j.program with
  | (.ok x, machine) =>
    .ok () ⟨store, machine, lattice.set row col x,
      { tally with evaluations := tally.evaluations + 1 }, drawn⟩
  | (.error e, machine) => .error e ⟨store, machine, lattice, tally, drawn⟩

/-- The side of a fine cell in pixels, as a signed word of 32 bits. -/
def pixelStep (j : Job) : Int := (j.resolution.fineStep : Int).bmod (Number.twoTo 32)

/-- Draw the contour in the fine cell at a point of the lattice. -/
def march (j : Job) (row col : Nat) : Pass := fun ⟨store, machine, lattice, tally, drawn⟩ =>
  let origin : Pixel := ⟨col * j.pixelStep, row * j.pixelStep⟩
  let segments := (lattice.corners row col 1).segments origin j.pixelStep
  .ok () ⟨store, machine, lattice, { tally with segments := tally.segments + segments.length },
    drawn ++ segments⟩

/-- Sample a fine point, unless it has a value, in the coarse cell at `(row, col)`; unless it lies
on the upper or left border of that cell, the fine cell that ends at it is complete. -/
def visit (j : Job) (row col fineRow fineCol : Nat) : Pass := do
  unless ← (·.lattice.isSampled fineRow fineCol) <$> get do
    j.sample fineRow fineCol
  unless fineRow = row ∨ fineCol = col do
    j.march (fineRow - 1) (fineCol - 1)

/-- Sample and draw the fine cells of a coarse cell. -/
def refine (j : Job) (row col : Nat) : Pass :=
  let side := j.resolution.refinement + 1
  (List.range' row side).forM fun fineRow =>
    (List.range' col side).forM fun fineCol => j.visit row col fineRow fineCol

/-- Refine a coarse cell if the contour crosses it. -/
def inspect (j : Job) (row col : Nat) : Pass := do
  if ← (·.lattice.corners row col j.resolution.refinement |>.isCrossed) <$> get then
    modify fun f => { f with tally.refinedCells := f.tally.refinedCells + 1 }
    j.refine row col

/-- Sample the coarse points. -/
def coarse (j : Job) (rows cols : Nat) : Pass :=
  (multiples j.resolution.refinement rows).forM fun row =>
    (multiples j.resolution.refinement cols).forM fun col => j.sample row col

/-- Inspect the coarse cells. -/
def contour (j : Job) (rows cols : Nat) : Pass :=
  let r := j.resolution.refinement
  (multiples r (rows - r)).forM fun row =>
    (multiples r (cols - r)).forM fun col => j.inspect row col

/-- A whole trace over a lattice of some rows and columns. -/
def run (j : Job) (rows cols : Nat) : Pass := do
  j.coarse rows cols
  j.contour rows cols

end Job

/-- Traces relations with the same axes at the same resolution. -/
structure Tracer where
  axes : Vocabulary.Axes
  resolution : Resolution
  lattice : Lattice
  machine : Machine
  tally : Tally

/-- What came of a trace. -/
structure Trace where
  outcome : Except TraceError Nat
  segments : Array Segment
  tracer : Tracer
  store : Store
  relation : Relation

namespace Tracer

def new (axes : Vocabulary.Axes) (resolution : Resolution) : Except SettingError Tracer := do
  resolution.check
  return ⟨axes, resolution, .empty, .new, .zero⟩

/-- Trace a relation over a canvas. A relation that is not valid changes nothing; one whose
program cannot be evaluated is not valid afterwards. -/
def trace (t : Tracer) (σ : Store) (r : Relation) (canvas : Canvas) : Trace :=
  if !r.isValid then ⟨.error .invalidRelation, #[], t, σ, r⟩
  else
    let job : Job := ⟨t.axes, r.program, canvas, t.resolution⟩
    let lattice := Lattice.covering canvas t.resolution
    match job.run lattice.rows lattice.cols ⟨σ, t.machine, lattice, .zero, #[]⟩ with
    | .ok () f =>
      ⟨.ok f.tally.segments, f.drawn,
        { t with lattice := f.lattice, machine := f.machine, tally := f.tally }, f.store, r⟩
    | .error e f =>
      ⟨.error (.evaluation e), f.drawn,
        { t with lattice := f.lattice, machine := f.machine, tally := f.tally }, f.store,
        r.invalidate⟩

end Tracer

end ImplicitPlot.Contour

import ImplicitPlot.PlotFile.Value
import ImplicitPlot.Plane.Canvas
import ImplicitPlot.Contour.Resolution
import ImplicitPlot.Symbols.Vocabulary

/-
  Plot files: all that a plot is made from. Each part may be missing, and then has a default.

  Constants keep the order of the file. Of a constant that is given twice, the first place and
  the last value count (`names_put`), so the names differ (`nodup_put`).
-/
namespace ImplicitPlot

open Yaml Symbols

/-- The size and window of a plot, its resolution, and what it shows. -/
structure PlotFile where
  width : Nat
  height : Nat
  window : Window
  resolution : Contour.Resolution
  constants : List (String × Float)
  relations : List String

namespace PlotFile

/-- The plot of a file that says nothing. -/
def default : PlotFile := ⟨1200, 800, .default, .default, [], []⟩

def canvas (p : PlotFile) : Canvas := ⟨p.window, p.width, p.height⟩

/-- A plot needs pixels, an open window and a lattice. -/
def check (p : PlotFile) : Except SettingError Unit := do
  if p.width = 0 ∨ p.height = 0 then throw (.emptyCanvas p.width p.height)
  p.window.check
  p.resolution.check

/-! ## Constants -/

/-- The constants with a value for a name. -/
def put (constants : List (String × Float)) (name : String) (x : Float) :
    List (String × Float) :=
  match constants with
  | [] => [(name, x)]
  | (other, y) :: rest =>
    if other = name then (name, x) :: rest else (other, y) :: put rest name x

theorem names_put (constants : List (String × Float)) (name : String) (x : Float) :
    (put constants name x).map Prod.fst =
      if name ∈ constants.map Prod.fst then constants.map Prod.fst
      else constants.map Prod.fst ++ [name] := by
  fun_induction put constants name x <;> grind

theorem nodup_put {constants : List (String × Float)} (h : (constants.map Prod.fst).Nodup)
    (name : String) (x : Float) : ((put constants name x).map Prod.fst).Nodup := by
  rw [names_put]
  split
  · exact h
  · grind [List.nodup_append]

/-- Register constants in their order, up to the first that is refused. -/
def registerAll (V : Vocabulary) (σ : Store) :
    List (String × Float) → Except RegistrationError Unit × Vocabulary × Store
  | [] => (.ok (), V, σ)
  | (name, x) :: rest =>
    match V.addVariable σ name .constant x with
    | .ok (_, V, σ) => registerAll V σ rest
    | .error e => (.error e, V, σ)

/-- Register the constants of a plot. -/
def register (p : PlotFile) (V : Vocabulary) (σ : Store) :
    Except RegistrationError Unit × Vocabulary × Store :=
  registerAll V σ p.constants

/-! ## Reading -/

/-- Why a file could not be read. -/
inductive ReadFailure where
  | notFound
  | isDirectory
  /-- A part of the path in front of its end is a file. -/
  | notDirectory
  | nameTooLong
  | other (reason : String)
  deriving DecidableEq, Repr

def ReadFailure.message : ReadFailure → String
  | notFound => "No such file or directory (os error 2)"
  | isDirectory => "Is a directory (os error 21)"
  | notDirectory => "Not a directory (os error 20)"
  | nameTooLong => "File name too long (os error 36)"
  | other reason => reason

/-- Why there is no plot in a file. -/
inductive Error where
  | unreadable (path : String) (cause : ReadFailure)
  /-- The text is no YAML, or a value in it has the wrong type. -/
  | malformed
  | setting (e : SettingError)

def Error.message : Error → String
  | unreadable path cause => "failed to read " ++ path ++ ": " ++ cause.message
  | malformed => "failed to parse configuration"
  | setting e => e.message

def window? (n : Node) : Option Window := do
  let fields ← entries? n
  return {
    xMin := ← field? fields "x_min" Window.default.xMin real?
    xMax := ← field? fields "x_max" Window.default.xMax real?
    yMin := ← field? fields "y_min" Window.default.yMin real?
    yMax := ← field? fields "y_max" Window.default.yMax real? }

def resolution? (n : Node) : Option Contour.Resolution := do
  let fields ← entries? n
  return {
    fineStep := ← field? fields "fine_step" Contour.Resolution.default.fineStep word?
    refinement := ← field? fields "refinement" Contour.Resolution.default.refinement word? }

def constants? (n : Node) : Option (List (String × Float)) := do
  (← entries? n).foldlM (fun cs (name, value) => return put cs name (← real? value)) []

def relations? (n : Node) : Option (List String) := do
  (← items? n).mapM text?

/-- The plot of a document. Fields of other names do not matter. -/
def ofNode? (n : Node) : Option PlotFile := do
  let fields ← entries? n
  return {
    width := ← field? fields "width" default.width word?
    height := ← field? fields "height" default.height word?
    window := ← field? fields "view" default.window window?
    resolution := ← field? fields "sampler" default.resolution resolution?
    constants := ← field? fields "constants" default.constants constants?
    relations := ← field? fields "relations" default.relations relations? }

/-- The plot of a text with at most one document. -/
def read? (text : String) : Option PlotFile := do
  match ← Node.documents? text.toList with
  | [] => return default
  | [document] => ofNode? document
  | _ => none

/-- The plot of a text, if it can be made. -/
def ofText (text : String) : Except Error PlotFile :=
  match read? text with
  | none => .error .malformed
  | some p => (p.check.mapError .setting).map fun _ => p

/-- The plot of the file at a path, given what came of reading that. -/
def ofContent (path : String) : Except ReadFailure String → Except Error PlotFile
  | .ok text => ofText text
  | .error cause => .error (.unreadable path cause)

end PlotFile

end ImplicitPlot

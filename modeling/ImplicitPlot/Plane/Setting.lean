import ImplicitPlot.Number.Shortest

/-
  What can be wrong with the settings of a plot, whichever way they were given.
-/
namespace ImplicitPlot

/-- Why a plot cannot be made with its settings. -/
inductive SettingError where
  | emptyCanvas (width height : Nat)
  | emptyX (lo hi : Float)
  | emptyY (lo hi : Float)
  | zeroFineStep
  | zeroRefinement
  /-- The step of the coarse lattice does not fit a word of 32 bits. -/
  | coarseStepTooLarge

namespace SettingError

def rangeText (lo hi : Float) : String :=
  "[" ++ Number.shortestText lo ++ ", " ++ Number.shortestText hi ++ "]"

def reason : SettingError → String
  | emptyCanvas width height =>
    "plot size " ++ Number.natText width ++ "x" ++ Number.natText height ++ " is empty"
  | emptyX lo hi => "x range " ++ rangeText lo hi ++ " is empty"
  | emptyY lo hi => "y range " ++ rangeText lo hi ++ " is empty"
  | zeroFineStep => "fine_step must be > 0"
  | zeroRefinement => "refinement must be > 0"
  | coarseStepTooLarge => "fine_step * refinement overflows"

def message (e : SettingError) : String := "invalid configuration: " ++ e.reason

end SettingError

end ImplicitPlot

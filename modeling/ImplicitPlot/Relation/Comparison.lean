import ImplicitPlot.Text.Bytes

/-
  Comparisons, and where the comparison of a relation's text is found: at the first character
  that can start one, before anything else is read. A comparison needs at least one character
  behind it, so a text that ends in `=` has none there. The two-character signs come before the
  one-character signs they start with; `!` alone is no comparison.
-/
namespace ImplicitPlot.Relation

/-- What a relation says of its two sides. -/
inductive Comparison where
  | equal
  | notEqual
  | less
  | lessEqual
  | greater
  | greaterEqual
  deriving DecidableEq, Repr

namespace Comparison

/-- How a comparison is spelled. -/
def symbol : Comparison → String
  | equal => "="
  | notEqual => "!="
  | less => "<"
  | lessEqual => "<="
  | greater => ">"
  | greaterEqual => ">="

/-- How a relation's comparison is written, also where there is none. -/
def describe : Option Comparison → String
  | some c => c.symbol
  | none => "invalid"

/-- Whether the comparison holds where the left side minus the right side has a value. It never
holds where the difference is no number. -/
def holds : Comparison → Float → Bool
  | equal, d => d == 0
  | notEqual, d => d != 0 && !d.isNaN
  | less, d => d < 0
  | lessEqual, d => d ≤ 0
  | greater, d => d > 0
  | greaterEqual, d => d ≥ 0

/-- The comparison that starts a text, if something follows its first character. -/
def at? : List Char → Option Comparison
  | '=' :: _ :: _ => some equal
  | '!' :: '=' :: _ => some notEqual
  | '<' :: '=' :: _ => some lessEqual
  | '<' :: _ :: _ => some less
  | '>' :: '=' :: _ => some greaterEqual
  | '>' :: _ :: _ => some greater
  | _ => none

end Comparison

/-- A text in front of a comparison, the comparison, and the text behind it. -/
structure Sides where
  left : List Char
  comparison : Comparison
  right : List Char
  deriving DecidableEq, Repr

namespace Sides

/-- The byte offset of the comparison. -/
def offset (s : Sides) : Nat := Text.byteLength s.left

/-- The number of bytes of the comparison. -/
def width (s : Sides) : Nat := Text.byteLength s.comparison.symbol.toList

/-- The sides of a text around its first comparison. -/
def ofText? : List Char → Option Sides
  | [] => none
  | c :: cs =>
    match Comparison.at? (c :: cs) with
    | some comparison => some ⟨[], comparison, (c :: cs).drop comparison.symbol.length⟩
    | none => (ofText? cs).map fun s => { s with left := c :: s.left }

end Sides

end ImplicitPlot.Relation

import ImplicitPlot.Relation.Comparison
import ImplicitPlot.Expression.Scan
import ImplicitPlot.Expression.Machine
import ImplicitPlot.Symbols.Standard

/-
  Relations: a text such as `x^2 + y^2 = 25` with one program for the left side minus the right
  side. The text stays when it cannot be compiled, so it can be edited; a relation without a
  comparison is not valid and has no program.
-/
namespace ImplicitPlot

open Symbols Expression

namespace Relation

/-- Why a text is no relation. Offsets count from the start of the whole text. -/
inductive Error where
  /-- There is no comparison in a text of some length. -/
  | noComparison (length : Nat)
  | left (e : SyntaxError)
  | right (e : SyntaxError)
  deriving DecidableEq, Repr

namespace Error

def offset : Error → Nat
  | noComparison length => length
  | left e | right e => e.offset

def message : Error → String
  | noComparison _ => "no relational operator found"
  | left e => "left-hand side: " ++ e.message
  | right e => "right-hand side: " ++ e.message

end Error

/-- The comparison of a text and the program for the difference of its sides. -/
def build (V : Vocabulary) (text : List Char) : Except Error (Comparison × Program) :=
  match Sides.ofText? text with
  | none => .error (.noComparison (Text.byteLength text))
  | some s => do
    let left ← (Expression.compile V s.left).mapError .left
    let right ← (Expression.compile V s.right).mapError fun e =>
      .right (e.shift (s.offset + s.width))
    return (s.comparison, (left ++ right).push (.apply V.subtraction))

end Relation

/-- A text, and what it was compiled to. -/
structure Relation where
  text : String
  comparison? : Option Relation.Comparison
  program : Program

namespace Relation

/-- A relation that was not compiled yet. -/
def ofText (text : String) : Relation := ⟨text, none, .empty⟩

def isValid (r : Relation) : Bool := r.comparison?.isSome

/-- The relation without its program. -/
def invalidate (r : Relation) : Relation := { r with comparison? := none, program := .empty }

/-- The relation with another text, not compiled. -/
def withText (r : Relation) (text : String) : Relation := { r with text }.invalidate

/-- Compile the text again. On failure the relation is not valid. -/
def compile (r : Relation) (V : Vocabulary) : Except Error Unit × Relation :=
  match build V r.text.toList with
  | .ok (comparison, program) => (.ok (), { r with comparison? := some comparison, program })
  | .error e => (.error e, r.invalidate)

/-- The valid relation of a text. -/
def ofText? (V : Vocabulary) (text : String) : Except Error Relation :=
  match (ofText text).compile V with
  | (.ok (), r) => .ok r
  | (.error e, _) => .error e

end Relation

end ImplicitPlot

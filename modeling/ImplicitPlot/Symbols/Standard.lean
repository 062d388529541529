import ImplicitPlot.Symbols.Vocabulary
import ImplicitPlot.Number.Remainder

/-
  The standard vocabulary: the four operations of arithmetic, remainder and power, the two signs,
  the elementary functions, `pi` and `e`, and the plot axes `x` and `y`. It is an ordinary
  vocabulary, made of the same registrations that any other is made of.

  Sums bind loosest, then products, then powers; a sign binds as a product does, so `-2^2` is
  the negative of a power.
-/
namespace ImplicitPlot.Symbols

/-- A function of one argument, as an operation. -/
def onOne (f : Float → Float) : List Float → Float
  | a :: _ => f a
  | [] => 0.0 / 0.0

/-- A function of two arguments, as an operation. -/
def onTwo (f : Float → Float → Float) : List Float → Float
  | a :: b :: _ => f a b
  | _ => 0.0 / 0.0

namespace Operator

/-- Binary subtraction. -/
def subtraction : Operator := .infixed "-" 1 (onTwo (· - ·))

/-- The infix operators of the standard vocabulary. -/
def standardInfixes : List Operator :=
  [.infixed "+" 1 (onTwo (· + ·)),
   subtraction,
   .infixed "*" 2 (onTwo (· * ·)),
   .infixed "/" 2 (onTwo (· / ·)),
   .infixed "%" 2 (onTwo Number.remainder),
   .infixed "^" 3 (onTwo Float.pow)]

/-- The prefix operators of the standard vocabulary. -/
def standardPrefixes : List Operator :=
  [.prefixed "-" 2 (onOne (-·)), .prefixed "+" 2 (onOne id)]

/-- The functions of the standard vocabulary. -/
def standardFunctions : List Operator :=
  [.called "sin" 1 (onOne Float.sin),
   .called "cos" 1 (onOne Float.cos),
   .called "tan" 1 (onOne Float.tan),
   .called "asin" 1 (onOne Float.asin),
   .called "acos" 1 (onOne Float.acos),
   .called "atan" 1 (onOne Float.atan),
   .called "sinh" 1 (onOne Float.sinh),
   .called "cosh" 1 (onOne Float.cosh),
   .called "tanh" 1 (onOne Float.tanh),
   .called "sqrt" 1 (onOne Float.sqrt),
   .called "abs" 1 (onOne Float.abs),
   .called "lg" 1 (onOne Float.log10),
   .called "ln" 1 (onOne Float.log),
   .called "log2" 1 (onOne Float.log2),
   .called "log" 2 (onTwo fun base x => Float.log x / Float.log base)]

end Operator

namespace Vocabulary

/-- Register operators one after the other, without those that are refused. -/
def addOperators (V : Vocabulary) (ops : List Operator) : Vocabulary :=
  ops.foldl (fun V op => (V.addOperator op).toOption.getD V) V

/-- Register variables one after the other, without those that are refused. -/
def addVariables (V : Vocabulary) (σ : Store) (kind : VariableKind) (vs : List (String × Float)) :
    Vocabulary × Store :=
  vs.foldl (fun (V, σ) (name, x) =>
    match V.addVariable σ name kind x with
    | .ok (_, V, σ) => (V, σ)
    | .error _ => (V, σ)) (V, σ)

/-- The operators, functions and constants, without axes. -/
def builtin (σ : Store) : Vocabulary × Store :=
  let V := empty.addOperators
    (Operator.standardInfixes ++ Operator.standardPrefixes ++ Operator.standardFunctions)
  V.addVariables σ .constant [("pi", 3.141592653589793), ("e", 2.718281828459045)]

/-- The standard vocabulary with its axes at the origin. -/
def standard (σ : Store) : Vocabulary × Store :=
  let (V, σ) := builtin σ
  V.addVariables σ .free [("x", 0.0), ("y", 0.0)]

/-- The operator that joins the two sides of a relation: the infix `-` of the vocabulary, or
subtraction of numbers where there is none. -/
def subtraction (V : Vocabulary) : Operator :=
  ((V.infixes.get? ['-']).filter fun op => op.arity == 2).getD Operator.subtraction

end Vocabulary

end ImplicitPlot.Symbols

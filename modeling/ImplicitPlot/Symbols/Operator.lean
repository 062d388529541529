/-
  Operators and functions: how they are written, how many values they take and what they compute.
  A higher priority binds tighter; functions and suffix operators have the highest.
-/
namespace ImplicitPlot.Symbols

/-- How an operator is written relative to its operands. -/
inductive Fixity where
  | prefixed
  | infixed
  | suffixed
  | called
  deriving DecidableEq, Repr

/-- The name of a way of writing. -/
def Fixity.describe : Fixity → String
  | .prefixed => "prefix"
  | .infixed => "infix"
  | .suffixed => "suffix"
  | .called => "function"

/-- An operation of fixed arity. Its arguments come in the order of the text. -/
structure Operator where
  name : String
  fixity : Fixity
  arity : Nat
  priority : Nat
  apply : List Float → Float

namespace Operator

/-- The priority of whatever binds tighter than all other operators. -/
def tightest : Nat := 255

def prefixed (name : String) (priority : Nat) (apply : List Float → Float) : Operator :=
  ⟨name, .prefixed, 1, priority, apply⟩

def infixed (name : String) (priority : Nat) (apply : List Float → Float) : Operator :=
  ⟨name, .infixed, 2, priority, apply⟩

def suffixed (name : String) (apply : List Float → Float) : Operator :=
  ⟨name, .suffixed, 1, tightest, apply⟩

def called (name : String) (arity : Nat) (apply : List Float → Float) : Operator :=
  ⟨name, .called, arity, tightest, apply⟩

end Operator

end ImplicitPlot.Symbols

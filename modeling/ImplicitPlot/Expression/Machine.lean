import ImplicitPlot.Expression.Program

/-
  The stack machine. Literals and variables put a value on the stack; an operator takes as many
  values as its arity, the topmost being its last argument, and puts its result there. A program
  is sound when it ends with exactly one value. Values that are infinite or no number are results
  like any other.

  A machine keeps its stack between runs and clears it at the start of each.
-/
namespace ImplicitPlot.Expression

open Symbols

/-- Why a program has no value. -/
inductive EvalError where
  /-- An operator needs more operands than the stack holds. -/
  | missingOperands (op : String) (arity available : Nat)
  /-- The program does not end with exactly one value. -/
  | unbalanced (depth : Nat)
  deriving DecidableEq, Repr

def EvalError.message : EvalError → String
  | missingOperands op arity available =>
    "operator '" ++ op ++ "' needs " ++ Number.natText arity ++ " operand(s), stack holds " ++
      Number.natText available
  | unbalanced depth =>
    "program left " ++ Number.natText depth ++ " value(s) on the stack, expected 1"

/-- A stack after one instruction; the topmost value comes first. -/
def Instruction.exec (σ : Store) (stack : List Float) : Instruction → Except EvalError (List Float)
  | literal x => .ok (x :: stack)
  | load v => .ok (σ.read v :: stack)
  | apply op =>
    if op.arity ≤ stack.length then
      .ok (op.apply (stack.take op.arity).reverse :: stack.drop op.arity)
    else .error (.missingOperands op.name op.arity stack.length)

/-- A machine with the stack that its last run left. -/
structure Machine where
  stack : List Float

namespace Machine

def new : Machine := ⟨[]⟩

/-- Run code until it ends or fails; the stack is the one where it stopped. -/
def exec (σ : Store) : List Instruction → List Float → Option EvalError × List Float
  | [], stack => (none, stack)
  | i :: code, stack =>
    match i.exec σ stack with
    | .ok stack => exec σ code stack
    | .error e => (some e, stack)

/-- The result of a finished run. -/
def result (stack : List Float) : Except EvalError Float :=
  match stack with
  | [x] => .ok x
  | _ => .error (.unbalanced stack.length)

/-- The machine with nothing on its stack. -/
def clear (m : Machine) : Machine := { m with stack := [] }

/-- Run a program on a cleared stack. -/
def evaluate (m : Machine) (σ : Store) (p : Program) : Except EvalError Float × Machine :=
  match exec σ p.code m.clear.stack with
  | (some e, stack) => (.error e, ⟨stack⟩)
  | (none, stack) => (result stack, ⟨stack⟩)

end Machine

/-- The value of a program, on a machine of its own. -/
def Program.value (σ : Store) (p : Program) : Except EvalError Float := (Machine.new.evaluate σ p).1

end ImplicitPlot.Expression

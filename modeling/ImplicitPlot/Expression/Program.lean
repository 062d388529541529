import ImplicitPlot.Symbols.Vocabulary
import ImplicitPlot.Number.Shortest

/-
  Programs in postfix form: a list of instructions for a stack machine, without jumps. Variables
  are held by handle, so a program sees every later change of their values.

  `maxDepth?` is the deepest stack that a program needs, decided without running it.
-/
namespace ImplicitPlot.Expression

open Symbols

/-- One step of a program. -/
inductive Instruction where
  /-- Put a number on the stack. -/
  | literal (x : Float)
  /-- Put the current value of a variable on the stack. -/
  | load (v : Variable)
  /-- Replace the topmost values, as many as the operator takes, by its result. -/
  | apply (op : Operator)

/-- How an instruction is written. -/
def Instruction.text : Instruction → String
  | literal x => Number.shortestText x
  | load v => v.name
  | apply op => op.name

/-- The number of values on the stack after an instruction; none if it needs more than there
are. -/
def Instruction.depthAfter? (depth : Nat) : Instruction → Option Nat
  | literal _ | load _ => some (depth + 1)
  | apply op => if op.arity ≤ depth then some (depth - op.arity + 1) else none

/-- A list of instructions. -/
structure Program where
  code : List Instruction

namespace Program

def empty : Program := ⟨[]⟩

def size (p : Program) : Nat := p.code.length

def isEmpty (p : Program) : Bool := p.code.isEmpty

/-- The program with one more instruction. -/
def push (p : Program) (i : Instruction) : Program := ⟨p.code ++ [i]⟩

/-- One program after the other. -/
def append (p q : Program) : Program := ⟨p.code ++ q.code⟩

instance : Append Program := ⟨append⟩

/-- The instructions with blanks between them. -/
def text (p : Program) : String := " ".intercalate (p.code.map Instruction.text)

/-- The deepest stack that code reaches from a stack of `depth` values, of which `deepest` is the
deepest so far; none if some instruction needs more values than there are. -/
def deepest? : List Instruction → Nat → Nat → Option Nat
  | [], _, deepest => some deepest
  | i :: code, depth, deepest => do
    let depth ← i.depthAfter? depth
    deepest? code depth (max deepest depth)

/-- The deepest stack that a program reaches; none if it ever lacks operands. -/
def maxDepth? (p : Program) : Option Nat := deepest? p.code 0 0

end Program

end ImplicitPlot.Expression

import ImplicitPlot.Expression.Token
import ImplicitPlot.Expression.Error
import ImplicitPlot.Expression.Program
import ImplicitPlot.Number.Numeral
import ImplicitPlot.Text.Bytes

/-
  From the text of an expression to a program, in one pass from left to right.

  The scan needs an operand or has just seen one. Operators that still wait for their right
  operand, and groups that are still open, are pending, the innermost first. An infix operator
  first writes out the pending operators that bind at least as tightly, so operators of one
  priority group to the left. A comma or a closing parenthesis writes out all pending operators
  of its group. Each group counts its commas and must close with as many arguments as it takes:
  the arity of its function, or one.

  `step_pos` says that each step takes at least one character, which is why the scan ends.
-/
namespace ImplicitPlot.Expression

open Symbols

/-- What waits on the stack of a scan. -/
inductive Pending where
  /-- An operator whose right operand is not complete. -/
  | operator (op : Operator)
  /-- An open parenthesis at an offset, after some commas; a call has its function. -/
  | group (offset commas : Nat) (callee : Option Operator)

/-- The number of arguments that a group takes. -/
def groupArity (callee : Option Operator) : Nat :=
  match callee with
  | some f => f.arity
  | none => 1

/-- The state of a scan. -/
structure Scan where
  /-- The instructions so far, the last one first. -/
  out : List Instruction
  /-- What is pending, the innermost first. -/
  pending : List Pending
  needsOperand : Bool

namespace Scan

def start : Scan := ⟨[], [], true⟩

/-- Write out the pending operators of the innermost group. -/
def flush : List Pending → List Instruction → List Pending × List Instruction
  | .operator op :: pending, out => flush pending (.apply op :: out)
  | pending, out => (pending, out)

/-- Write out the pending operators that bind at least as tightly as a priority. -/
def flushTighter (priority : Nat) :
    List Pending → List Instruction → List Pending × List Instruction
  | .operator op :: pending, out =>
    if op.priority < priority then (.operator op :: pending, out)
    else flushTighter priority pending (.apply op :: out)
  | pending, out => (pending, out)

/-- The scan after a token where an operand is needed, which stands between two offsets. -/
def operand (s : Scan) (first last : Nat) : OperandToken → Except SyntaxError Scan
  | .openGroup => .ok { s with pending := .group first 0 none :: s.pending }
  | .call f => .ok { s with pending := .group (last - 1) 0 (some f) :: s.pending }
  | .prefixed op => .ok { s with pending := .operator op :: s.pending }
  | .variable v => .ok { s with out := .load v :: s.out, needsOperand := false }
  | .number text =>
    match Number.readFloat? text with
    | some x => .ok { s with out := .literal x :: s.out, needsOperand := false }
    | none => .error (.invalidNumber first)

/-- The scan after a token at an offset behind an operand. -/
def operator (s : Scan) (offset : Nat) : OperatorToken → Except SyntaxError Scan
  | .suffixed op => .ok { s with out := .apply op :: s.out }
  | .infixed op =>
    let (pending, out) := flushTighter op.priority s.pending s.out
    .ok ⟨out, .operator op :: pending, true⟩
  | .comma =>
    match flush s.pending s.out with
    | (.group o commas callee :: pending, out) =>
      .ok ⟨out, .group o (commas + 1) callee :: pending, true⟩
    | _ => .error (.unexpected offset ',')
  | .closeGroup =>
    match flush s.pending s.out with
    | (.group _ commas callee :: pending, out) =>
      if commas + 1 = groupArity callee then
        .ok ⟨(callee.map Instruction.apply).toList ++ out, pending, false⟩
      else .error (.argumentCount offset (groupArity callee) (commas + 1))
    | _ => .error (.unopened offset)

/-- The scan after the token that starts a text at an offset, and the number of its characters. -/
def step (V : Vocabulary) (offset : Nat) (c : Char) (cs : List Char) (s : Scan) :
    Except SyntaxError (Nat × Scan) :=
  if s.needsOperand then
    match operandToken? V (c :: cs) with
    | some (token, n) =>
      (s.operand offset (offset + Text.byteLength ((c :: cs).take n)) token).map (n, ·)
    | none => .error (.unexpected offset c)
  else
    match operatorToken? V (c :: cs) with
    | some (token, n) => (s.operator offset token).map (n, ·)
    | none => .error (.unexpected offset c)

theorem step_pos {V : Vocabulary} {offset n : Nat} {c : Char} {cs : List Char} {s s' : Scan}
    (h : s.step V offset c cs = .ok (n, s')) : 0 < n := by
  unfold step at h
  split at h
  · split at h
    · rename_i token k htoken
      cases hs : s.operand offset (offset + Text.byteLength ((c :: cs).take k)) token with
      | error e => simp [hs, Except.map] at h
      | ok t =>
        simp only [hs, Except.map, Except.ok.injEq, Prod.mk.injEq] at h
        exact h.1 ▸ operandToken?_pos htoken
    · simp at h
  · split at h
    · rename_i token k htoken
      cases hs : s.operator offset token with
      | error e => simp [hs, Except.map] at h
      | ok t =>
        simp only [hs, Except.map, Except.ok.injEq, Prod.mk.injEq] at h
        exact h.1 ▸ operatorToken?_pos htoken
    · simp at h

theorem drop_length_lt {cs rest : List Char} {c : Char} {n : Nat}
    (h : Text.dropBlanks cs = c :: rest) (hn : 0 < n) :
    ((c :: rest).drop n).length < cs.length := by
  have := Text.dropBlanks_length_le cs
  rw [h] at this
  simp only [List.length_drop, List.length_cons] at this ⊢
  omega

/-- Scan a text that starts at an offset to its end. -/
def run (V : Vocabulary) (offset : Nat) (cs : List Char) (s : Scan) : Except SyntaxError Scan :=
  match hcs : Text.dropBlanks cs with
  | [] => .ok s
  | c :: rest =>
    let here := offset + Text.byteLength (cs.takeWhile Text.isBlank)
    match hstep : s.step V here c rest with
    | .ok (n, s) =>
      have := drop_length_lt hcs (step_pos hstep)
      run V (here + Text.byteLength ((c :: rest).take n)) ((c :: rest).drop n) s
    | .error e => .error e
termination_by cs.length
decreasing_by exact this

/-- Write out all that is pending; no group may be open. -/
def drain : List Pending → List Instruction → Except SyntaxError (List Instruction)
  | [], out => .ok out
  | .operator op :: pending, out => drain pending (.apply op :: out)
  | .group offset _ _ :: _, _ => .error (.unclosed offset)

/-- The instructions of a finished scan of `length` bytes, the last one first. -/
def finish (s : Scan) (length : Nat) : Except SyntaxError (List Instruction) :=
  if s.needsOperand then .error (.unfinished length) else drain s.pending s.out

end Scan

/-- The program of an expression, or the first error of its text. -/
def compile (V : Vocabulary) (text : List Char) : Except SyntaxError Program := do
  let s ← Scan.start.run V 0 text
  let out ← s.finish (Text.byteLength text)
  return ⟨out.reverse⟩

end ImplicitPlot.Expression

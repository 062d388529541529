import ImplicitPlot.Expression.Scan

/-
  Operators that wait on the stack of a scan. `emit` writes out a row of them, the innermost
  first. The three ways in which a scan empties its stack all write out a front part of it: down
  to the innermost group (`flush`), down to an operator that binds looser than the next one
  (`flushTighter`), or all of it at the end (`drain`). The lemmas here say which part that is, in
  both directions: for a stack that is known to start with operators, and for any stack.
-/
namespace ImplicitPlot.Expression.Scan

open Symbols

/-- The code, last instruction first, after operators were written out in their order. -/
def emit (ops : List Operator) (out : List Instruction) : List Instruction :=
  ops.foldl (fun out op => .apply op :: out) out

@[simp] theorem emit_nil (out : List Instruction) : emit [] out = out := rfl

@[simp] theorem emit_cons (op : Operator) (ops : List Operator) (out : List Instruction) :
    emit (op :: ops) out = emit ops (.apply op :: out) := rfl

theorem emit_append (ops ops' : List Operator) (out : List Instruction) :
    emit (ops ++ ops') out = emit ops' (emit ops out) :=
  List.foldl_append

/-- A stack with operators on top. -/
def waiting (ops : List Operator) (pending : List Pending) : List Pending :=
  ops.map .operator ++ pending

@[simp] theorem waiting_nil (pending : List Pending) : waiting [] pending = pending := rfl

@[simp] theorem waiting_cons (op : Operator) (ops : List Operator) (pending : List Pending) :
    waiting (op :: ops) pending = .operator op :: waiting ops pending := rfl

theorem waiting_append (ops ops' : List Operator) (pending : List Pending) :
    waiting (ops ++ ops') pending = waiting ops (waiting ops' pending) := by
  simp [waiting]

/-- The topmost entry of a stack, if it is an operator, binds looser than `m`. -/
def TopBelow (m : Nat) (pending : List Pending) : Prop :=
  ∀ op, pending.head? = some (.operator op) → op.priority < m

theorem topBelow_nil (m : Nat) : TopBelow m [] := by
  intro op h
  cases h

theorem topBelow_group (m offset commas : Nat) (callee : Option Operator)
    (pending : List Pending) : TopBelow m (.group offset commas callee :: pending) := by
  intro op h
  cases h

theorem topBelow_operator (op : Operator) (pending : List Pending) :
    TopBelow (op.priority + 1) (.operator op :: pending) := by
  intro op' h
  cases h
  exact Nat.lt_succ_self _

theorem TopBelow.mono {m n : Nat} {pending : List Pending} (h : TopBelow m pending)
    (hmn : m ≤ n) : TopBelow n pending :=
  fun op hop => Nat.lt_of_lt_of_le (h op hop) hmn

/-! ## Known stacks -/

theorem flush_waiting (ops : List Operator) (pending : List Pending) (out : List Instruction) :
    flush (waiting ops pending) out = flush pending (emit ops out) := by
  induction ops generalizing out with
  | nil => rfl
  | cons op ops ih => exact ih _

theorem flush_group (offset commas : Nat) (callee : Option Operator) (pending : List Pending)
    (out : List Instruction) :
    flush (.group offset commas callee :: pending) out =
      (.group offset commas callee :: pending, out) := rfl

theorem flushTighter_waiting {priority : Nat} {ops : List Operator}
    (h : ∀ op ∈ ops, priority ≤ op.priority) (pending : List Pending) (out : List Instruction) :
    flushTighter priority (waiting ops pending) out =
      flushTighter priority pending (emit ops out) := by
  induction ops generalizing out with
  | nil => rfl
  | cons op ops ih =>
    have hop := h op List.mem_cons_self
    rw [waiting_cons, flushTighter, if_neg (by omega), emit_cons]
    exact ih (fun o ho => h o (List.mem_cons_of_mem op ho)) _

theorem flushTighter_of_topBelow {priority : Nat} {pending : List Pending}
    (h : TopBelow priority pending) (out : List Instruction) :
    flushTighter priority pending out = (pending, out) := by
  rcases pending with _ | ⟨_ | _, pending⟩
  · rfl
  · rename_i op
    rw [flushTighter, if_pos (h op rfl)]
  · rfl

/-- An infix operator writes out the waiting operators from the top down to one that binds looser,
and never goes below them if the stack there starts with one. -/
theorem flushTighter_waiting_above {priority : Nat} {pending : List Pending}
    (h : TopBelow priority pending) (ops : List Operator) (out : List Instruction) :
    flushTighter priority (waiting ops pending) out =
      (waiting (ops.dropWhile fun op => priority ≤ op.priority) pending,
        emit (ops.takeWhile fun op => priority ≤ op.priority) out) := by
  induction ops generalizing out with
  | nil => exact flushTighter_of_topBelow h out
  | cons op ops ih =>
    rw [waiting_cons, flushTighter, List.dropWhile_cons, List.takeWhile_cons]
    by_cases hop : op.priority < priority
    · rw [if_pos hop, if_neg (by simpa using hop), if_neg (by simpa using hop)]
      rfl
    · rw [if_neg hop, if_pos (by simpa using hop), if_pos (by simpa using hop)]
      exact ih (.apply op :: out)

theorem drain_waiting (ops : List Operator) (out : List Instruction) :
    drain (waiting ops []) out = .ok (emit ops out) := by
  induction ops generalizing out with
  | nil => rfl
  | cons op ops ih => exact ih _

/-! ## Any stack -/

theorem exists_flush (pending : List Pending) (out : List Instruction) :
    ∃ ops rest, pending = waiting ops rest ∧ flush pending out = (rest, emit ops out) := by
  induction pending generalizing out with
  | nil => exact ⟨[], [], rfl, rfl⟩
  | cons p pending ih =>
    cases p with
    | operator op =>
      obtain ⟨ops, rest, rfl, h⟩ := ih (.apply op :: out)
      exact ⟨op :: ops, rest, rfl, h⟩
    | group offset commas callee => exact ⟨[], _, rfl, rfl⟩

/-- The operators end at a group or at the bottom of the stack. -/
theorem flush_cases (pending : List Pending) (out : List Instruction) :
    ∃ ops, (pending = waiting ops [] ∧ flush pending out = ([], emit ops out)) ∨
      ∃ o commas callee rest, pending = waiting ops (.group o commas callee :: rest) ∧
        flush pending out = (.group o commas callee :: rest, emit ops out) := by
  induction pending generalizing out with
  | nil => exact ⟨[], Or.inl ⟨rfl, rfl⟩⟩
  | cons p pending ih =>
    cases p with
    | operator op =>
      obtain ⟨ops, ⟨rfl, h⟩ | ⟨o, commas, callee, rest, rfl, h⟩⟩ := ih (.apply op :: out)
      · exact ⟨op :: ops, Or.inl ⟨rfl, h⟩⟩
      · exact ⟨op :: ops, Or.inr ⟨o, commas, callee, rest, rfl, h⟩⟩
    | group offset commas callee => exact ⟨[], Or.inr ⟨offset, commas, callee, pending, rfl, rfl⟩⟩

theorem exists_flushTighter (priority : Nat) (pending : List Pending) (out : List Instruction) :
    ∃ ops rest, pending = waiting ops rest ∧
      flushTighter priority pending out = (rest, emit ops out) := by
  induction pending generalizing out with
  | nil => exact ⟨[], [], rfl, rfl⟩
  | cons p pending ih =>
    cases p with
    | operator op =>
      by_cases h : op.priority < priority
      · exact ⟨[], _, rfl, by rw [flushTighter, if_pos h, emit_nil]⟩
      · obtain ⟨ops, rest, rfl, hrest⟩ := ih (.apply op :: out)
        exact ⟨op :: ops, rest, rfl, by rw [flushTighter, if_neg h, emit_cons]; exact hrest⟩
    | group offset commas callee => exact ⟨[], _, rfl, rfl⟩

theorem exists_drain {pending : List Pending} {out code : List Instruction}
    (h : drain pending out = .ok code) : ∃ ops, pending = waiting ops [] ∧ code = emit ops out := by
  induction pending generalizing out with
  | nil => cases h; exact ⟨[], rfl, rfl⟩
  | cons p pending ih =>
    cases p with
    | operator op =>
      obtain ⟨ops, rfl, hcode⟩ := ih h
      exact ⟨op :: ops, rfl, hcode⟩
    | group offset commas callee => cases h

theorem exists_drain_error {pending : List Pending} {out : List Instruction} {e : SyntaxError}
    (h : drain pending out = .error e) :
    ∃ ops o commas callee rest, pending = waiting ops (.group o commas callee :: rest) ∧
      e = .unclosed o := by
  induction pending generalizing out with
  | nil => cases h
  | cons p pending ih =>
    cases p with
    | operator op =>
      obtain ⟨ops, o, commas, callee, rest, rfl, he⟩ := ih h
      exact ⟨op :: ops, o, commas, callee, rest, rfl, he⟩
    | group offset commas callee =>
      cases h
      exact ⟨[], offset, commas, callee, pending, rfl, rfl⟩

end ImplicitPlot.Expression.Scan

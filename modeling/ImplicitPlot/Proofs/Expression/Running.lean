import ImplicitPlot.Proofs.Expression.Height

/-
  Running code in parts. Code that comes first runs first (`Machine.exec_append`), and code that
  ends never looks at the values that were on the stack before it (`Machine.exec_above`). So a
  program puts its value on top of whatever is there, and two programs with an operator of two
  operands behind them have its value at theirs (`Program.value_binary`).

  Code sees a store only through what variables read, and a machine starts with nothing on its
  stack, so neither the rest of the store nor earlier runs show (`Machine.evaluate_congr`).
-/
namespace ImplicitPlot.Expression

open Symbols

/-- An instruction that finds its operands leaves what is below them alone. -/
theorem Instruction.exec_above {σ : Store} {i : Instruction} {stack stack' : List Float}
    (h : i.exec σ stack = .ok stack') (base : List Float) :
    i.exec σ (stack ++ base) = .ok (stack' ++ base) := by
  cases i with
  | literal x => cases h; rfl
  | load v => cases h; rfl
  | apply op =>
    rw [exec] at h ⊢
    split at h
    · rename_i harity
      cases h
      have hmore : op.arity ≤ (stack ++ base).length := by
        rw [List.length_append]
        omega
      rw [if_pos hmore, List.take_append_of_le_length harity,
        List.drop_append_of_le_length harity]
      rfl
    · cases h

theorem Instruction.exec_congr {σ τ : Store} (h : ∀ v, σ.read v = τ.read v) (i : Instruction)
    (stack : List Float) : i.exec σ stack = i.exec τ stack := by
  cases i with
  | literal x => rfl
  | load v => rw [exec, exec, h]
  | apply op => rfl

namespace Machine

theorem exec_append {σ : Store} {code : List Instruction} {stack stack' : List Float}
    (h : exec σ code stack = (none, stack')) (code' : List Instruction) :
    exec σ (code ++ code') stack = exec σ code' stack' := by
  induction code generalizing stack with
  | nil => cases h; rfl
  | cons i code ih =>
    rw [List.cons_append, exec]
    rw [exec] at h
    cases hexec : i.exec σ stack with
    | error e => rw [hexec] at h; cases h
    | ok stack₁ =>
      rw [hexec] at h
      exact ih h

theorem exec_above {σ : Store} {code : List Instruction} {stack stack' : List Float}
    (h : exec σ code stack = (none, stack')) (base : List Float) :
    exec σ code (stack ++ base) = (none, stack' ++ base) := by
  induction code generalizing stack with
  | nil => cases h; rfl
  | cons i code ih =>
    rw [exec] at h
    cases hexec : i.exec σ stack with
    | error e => rw [hexec] at h; cases h
    | ok stack₁ =>
      rw [hexec] at h
      rw [exec, Instruction.exec_above hexec]
      exact ih h

/-- Stores in which all variables read the same run code alike. -/
theorem exec_congr {σ τ : Store} (h : ∀ v, σ.read v = τ.read v) (code : List Instruction)
    (stack : List Float) : exec σ code stack = exec τ code stack := by
  induction code generalizing stack with
  | nil => rfl
  | cons i code ih =>
    rw [exec, exec, Instruction.exec_congr h]
    cases i.exec τ stack with
    | ok stack' => exact ih stack'
    | error e => rfl

theorem evaluate_congr {σ τ : Store} (h : ∀ v, σ.read v = τ.read v) (m m' : Machine)
    (p : Program) : m.evaluate σ p = m'.evaluate τ p := by
  unfold evaluate clear
  rw [exec_congr h]

end Machine

namespace Program

/-- A program puts its value on top of the stack. -/
theorem exec_of_value_above {σ : Store} {p : Program} {x : Float} (h : p.value σ = .ok x)
    (base : List Float) : Machine.exec σ p.code base = (none, x :: base) :=
  Machine.exec_above (exec_of_value h) base

/-- An operator of two operands behind two programs is applied to their values. -/
theorem value_binary {σ : Store} {p q : Program} {x y : Float} (hp : p.value σ = .ok x)
    (hq : q.value σ = .ok y) {op : Operator} (hop : op.arity = 2) :
    ((p ++ q).push (.apply op)).value σ = .ok (op.apply [x, y]) := by
  have hoperands : Machine.exec σ (p.code ++ q.code) [] = (none, [y, x]) := by
    rw [Machine.exec_append (exec_of_value hp)]
    exact exec_of_value_above hq [x]
  have hlast : Machine.exec σ [.apply op] [y, x] = (none, [op.apply [x, y]]) := by
    have harity : op.arity ≤ [y, x].length := Nat.le_of_eq hop
    rw [Machine.exec, Instruction.exec, if_pos harity, hop]
    rfl
  have hexec : Machine.exec σ ((p ++ q).push (.apply op)).code [] = (none, [op.apply [x, y]]) :=
    (Machine.exec_append hoperands [.apply op]).trans hlast
  exact value_of_exec hexec

end Program

end ImplicitPlot.Expression

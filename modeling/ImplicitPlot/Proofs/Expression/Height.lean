import ImplicitPlot.Expression.Machine

/-
  Stack heights. How many values code leaves on the stack depends on the code and on the height
  it starts from, not on the values: `heightAfter?` computes it without running.

  `Machine.exec_of_heightAfter?` and `heightAfter?_of_exec` say that a run ends exactly where the
  height is defined, so whether a program has a value is the same under every store
  (`Program.exists_value_iff`). `Program.isSome_maxDepth?` ties the height to the deepest stack.
-/
namespace ImplicitPlot.Expression

open Symbols

/-- The number of values on the stack after code that starts above `depth` values; none if some
instruction needs more values than there are. -/
def heightAfter? : List Instruction → Nat → Option Nat
  | [], depth => some depth
  | i :: code, depth => (i.depthAfter? depth).bind (heightAfter? code)

theorem heightAfter?_append (code code' : List Instruction) (depth : Nat) :
    heightAfter? (code ++ code') depth = (heightAfter? code depth).bind (heightAfter? code') := by
  induction code generalizing depth with
  | nil => rfl
  | cons i code ih =>
    simp only [List.cons_append, heightAfter?, Option.bind_assoc]
    congr 1
    funext d
    exact ih d

/-- One more instruction at the end of code. -/
theorem heightAfter?_concat (code : List Instruction) (i : Instruction) (depth : Nat) :
    heightAfter? (code ++ [i]) depth = (heightAfter? code depth).bind fun d => i.depthAfter? d := by
  rw [heightAfter?_append]
  congr 1
  funext d
  simp [heightAfter?]

theorem depthAfter?_apply {op : Operator} {depth : Nat} (h : op.arity ≤ depth) :
    (Instruction.apply op).depthAfter? depth = some (depth - op.arity + 1) := by
  rw [Instruction.depthAfter?, if_pos h]

/-- Values below the ones that an instruction takes stay below its result. -/
theorem depthAfter?_add {i : Instruction} {depth k : Nat} (h : i.depthAfter? depth = some k)
    (n : Nat) : i.depthAfter? (depth + n) = some (k + n) := by
  cases i with
  | literal x => cases h; simp only [Instruction.depthAfter?, Option.some.injEq]; omega
  | load v => cases h; simp only [Instruction.depthAfter?, Option.some.injEq]; omega
  | apply op =>
    rw [Instruction.depthAfter?] at h
    split at h
    · cases h
      rw [depthAfter?_apply (by omega), Option.some.injEq]
      omega
    · cases h

theorem heightAfter?_add {code : List Instruction} {depth k : Nat}
    (h : heightAfter? code depth = some k) (n : Nat) :
    heightAfter? code (depth + n) = some (k + n) := by
  induction code generalizing depth with
  | nil => cases h; rfl
  | cons i code ih =>
    rw [heightAfter?, Option.bind_eq_some_iff] at h
    obtain ⟨d, hd, h⟩ := h
    rw [heightAfter?, depthAfter?_add hd]
    exact ih h

/-! ## The deepest stack -/

theorem isSome_deepest? (code : List Instruction) (depth deepest : Nat) :
    (Program.deepest? code depth deepest).isSome = (heightAfter? code depth).isSome := by
  induction code generalizing depth deepest with
  | nil => rfl
  | cons i code ih =>
    rw [Program.deepest?, heightAfter?]
    cases h : i.depthAfter? depth with
    | none => rfl
    | some d => exact ih d _

theorem Program.isSome_maxDepth? (p : Program) :
    p.maxDepth?.isSome = (heightAfter? p.code 0).isSome :=
  isSome_deepest? p.code 0 0

/-! ## Running -/

theorem Instruction.exec_of_depthAfter? (σ : Store) {i : Instruction} {stack : List Float} {k : Nat}
    (h : i.depthAfter? stack.length = some k) :
    ∃ stack', i.exec σ stack = .ok stack' ∧ stack'.length = k := by
  cases i with
  | literal x => cases h; exact ⟨_, rfl, rfl⟩
  | load v => cases h; exact ⟨_, rfl, rfl⟩
  | apply op =>
    rw [depthAfter?] at h
    split at h
    · rename_i harity
      cases h
      refine ⟨_, if_pos harity, ?_⟩
      rw [List.length_cons, List.length_drop]
    · cases h

theorem Instruction.depthAfter?_of_exec {σ : Store} {i : Instruction} {stack stack' : List Float}
    (h : i.exec σ stack = .ok stack') : i.depthAfter? stack.length = some stack'.length := by
  cases i with
  | literal x => cases h; rfl
  | load v => cases h; rfl
  | apply op =>
    rw [exec] at h
    split at h
    · rename_i harity
      cases h
      rw [depthAfter?_apply harity, List.length_cons, List.length_drop]
    · cases h

theorem Machine.exec_of_heightAfter? (σ : Store) {code : List Instruction} {stack : List Float}
    {k : Nat} (h : heightAfter? code stack.length = some k) :
    ∃ stack', exec σ code stack = (none, stack') ∧ stack'.length = k := by
  induction code generalizing stack with
  | nil => cases h; exact ⟨stack, rfl, rfl⟩
  | cons i code ih =>
    rw [heightAfter?, Option.bind_eq_some_iff] at h
    obtain ⟨d, hd, h⟩ := h
    obtain ⟨stack₁, hexec, rfl⟩ := Instruction.exec_of_depthAfter? σ hd
    obtain ⟨stack₂, hrest, hk⟩ := ih h
    exact ⟨stack₂, by rw [exec, hexec]; exact hrest, hk⟩

theorem heightAfter?_of_exec {σ : Store} {code : List Instruction} {stack stack' : List Float}
    (h : Machine.exec σ code stack = (none, stack')) :
    heightAfter? code stack.length = some stack'.length := by
  induction code generalizing stack with
  | nil => cases h; rfl
  | cons i code ih =>
    rw [Machine.exec] at h
    cases hexec : i.exec σ stack with
    | error e => rw [hexec] at h; cases h
    | ok stack₁ =>
      rw [hexec] at h
      rw [heightAfter?, Instruction.depthAfter?_of_exec hexec]
      exact ih h

/-- What a machine ran before does not show in the value of a program. -/
theorem Machine.evaluate_fst (m : Machine) (σ : Store) (p : Program) :
    (m.evaluate σ p).1 = p.value σ := rfl

theorem Program.value_of_exec {σ : Store} {p : Program} {stack : List Float}
    (h : Machine.exec σ p.code [] = (none, stack)) : p.value σ = Machine.result stack := by
  have hexec : Machine.exec σ p.code Machine.new.clear.stack = (none, stack) := h
  rw [value, Machine.evaluate, hexec]

theorem Program.exec_of_value {σ : Store} {p : Program} {x : Float} (h : p.value σ = .ok x) :
    Machine.exec σ p.code [] = (none, [x]) := by
  rcases hexec : Machine.exec σ p.code [] with ⟨_ | e, stack⟩
  · rw [value_of_exec hexec] at h
    rcases stack with _ | ⟨y, _ | ⟨z, stack⟩⟩ <;> cases h
    rfl
  · have hexec' : Machine.exec σ p.code Machine.new.clear.stack = (some e, stack) := hexec
    rw [value, Machine.evaluate, hexec'] at h
    cases h

/-- Whether a program has a value depends on its instructions alone. -/
theorem Program.exists_value_iff (σ : Store) (p : Program) :
    (∃ x, p.value σ = .ok x) ↔ heightAfter? p.code 0 = some 1 := by
  constructor
  · rintro ⟨x, h⟩
    exact heightAfter?_of_exec (exec_of_value h)
  · intro h
    have hempty : heightAfter? p.code ([] : List Float).length = some 1 := h
    obtain ⟨stack, hexec, hlength⟩ := Machine.exec_of_heightAfter? σ hempty
    obtain ⟨x, rfl⟩ := List.length_eq_one_iff.mp hlength
    exact ⟨x, value_of_exec hexec⟩

end ImplicitPlot.Expression

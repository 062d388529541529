import ImplicitPlot.Proofs.Expression.Running
import Mathlib.Algebra.Ring.Int.Defs

/-
  How a run of a program can fail. Values never matter: two runs of the same code from stacks of
  one height fail at the same instruction with the same error, or both end at the same height
  (`Machine.exec_shape`). A run fails at the first operator that needs more values than the stack
  holds (`Machine.exec_fails_iff`), and where it does not fail it ends at the net depth of the
  code, the sum of what each instruction adds and takes (`Machine.exec_netDepth`).

  `Machine.stacksSeen` lists the stacks that a run passes through. The deepest stack that is
  computed without running is the height of the highest of them
  (`Machine.stacksSeen_of_deepest?`).
-/
namespace ImplicitPlot.Expression

open Symbols

/-! ## Runs that fail -/

/-- An instruction sees no more of a stack than its height when it fails. -/
theorem Instruction.exec_shape (σ τ : Store) (i : Instruction) {stack stack' : List Float}
    (h : stack.length = stack'.length) :
    (∃ e, i.exec σ stack = .error e ∧ i.exec τ stack' = .error e) ∨
      ∃ next next', i.exec σ stack = .ok next ∧ i.exec τ stack' = .ok next' ∧
        next.length = next'.length := by
  cases i with
  | literal x => exact Or.inr ⟨_, _, rfl, rfl, by simp [h]⟩
  | load v => exact Or.inr ⟨_, _, rfl, rfl, by simp [h]⟩
  | apply op =>
    by_cases harity : op.arity ≤ stack.length
    · have harity' : op.arity ≤ stack'.length := by omega
      exact Or.inr ⟨_, _, if_pos harity, if_pos harity', by simp [h]⟩
    · have harity' : ¬op.arity ≤ stack'.length := by omega
      have hσ : (apply op).exec σ stack = .error (.missingOperands op.name op.arity stack.length) :=
        if_neg harity
      have hτ : (apply op).exec τ stack' =
          .error (.missingOperands op.name op.arity stack'.length) := if_neg harity'
      exact Or.inl ⟨_, hσ, h ▸ hτ⟩

namespace Machine

theorem exec_cons_ok {σ : Store} {i : Instruction} {code : List Instruction}
    {stack next : List Float} (h : i.exec σ stack = .ok next) :
    exec σ (i :: code) stack = exec σ code next := by
  rw [exec, h]

theorem exec_cons_error {σ : Store} {i : Instruction} {code : List Instruction}
    {stack : List Float} {e : EvalError} (h : i.exec σ stack = .error e) :
    exec σ (i :: code) stack = (some e, stack) := by
  rw [exec, h]

/-- Runs of the same code from stacks of one height fail alike and end at one height. -/
theorem exec_shape (σ τ : Store) (code : List Instruction) {stack stack' : List Float}
    (h : stack.length = stack'.length) :
    (exec σ code stack).1 = (exec τ code stack').1 ∧
      (exec σ code stack).2.length = (exec τ code stack').2.length := by
  induction code generalizing stack stack' with
  | nil => exact ⟨rfl, h⟩
  | cons i code ih =>
    obtain ⟨e, hσ, hτ⟩ | ⟨next, next', hσ, hτ, hnext⟩ := i.exec_shape σ τ h
    · rw [exec_cons_error hσ, exec_cons_error hτ]
      exact ⟨rfl, h⟩
    · rw [exec_cons_ok hσ, exec_cons_ok hτ]
      exact ih hnext

/-- A run fails at the first operator that finds too few values, and its error says so. -/
theorem exec_fails_iff {σ : Store} {code : List Instruction} {stack : List Float} {e : EvalError} :
    (exec σ code stack).1 = some e ↔
      ∃ before op after found, code = before ++ .apply op :: after ∧
        exec σ before stack = (none, found) ∧ found.length < op.arity ∧
        e = .missingOperands op.name op.arity found.length := by
  constructor
  · intro h
    induction code generalizing stack with
    | nil => simp [exec] at h
    | cons i code ih =>
      cases hi : i.exec σ stack with
      | ok next =>
        rw [exec_cons_ok hi] at h
        obtain ⟨before, op, after, found, rfl, hbefore, hfound, he⟩ := ih h
        have hmore : exec σ (i :: before) stack = (none, found) := by
          rw [exec_cons_ok hi, hbefore]
        exact ⟨i :: before, op, after, found, rfl, hmore, hfound, he⟩
      | error e' =>
        rw [exec_cons_error hi] at h
        obtain rfl : e' = e := Option.some.inj h
        cases i with
        | literal x => cases hi
        | load v => cases hi
        | apply op =>
          rw [Instruction.exec] at hi
          split at hi
          · cases hi
          · rename_i harity
            have hfew : stack.length < op.arity := by omega
            exact ⟨[], op, code, stack, rfl, rfl, hfew, (Except.error.inj hi).symm⟩
  · rintro ⟨before, op, after, found, rfl, hbefore, hfound, rfl⟩
    have hfew : ¬op.arity ≤ found.length := by omega
    have hlast : (Instruction.apply op).exec σ found =
        .error (.missingOperands op.name op.arity found.length) := if_neg hfew
    rw [exec_append hbefore, exec_cons_error hlast]

end Machine

/-! ## Net depth -/

/-- What an instruction adds to the height of a stack. -/
def Instruction.gain : Instruction → Int
  | literal _ | load _ => 1
  | apply op => 1 - op.arity

/-- What code adds to the height of a stack: one for each value that it puts there, less what its
operators take beyond their results. -/
def netDepth (code : List Instruction) : Int := (code.map Instruction.gain).sum

theorem Instruction.exec_gain {σ : Store} {i : Instruction} {stack next : List Float}
    (h : i.exec σ stack = .ok next) : (next.length : Int) = stack.length + i.gain := by
  cases i with
  | literal x => cases h; simp [gain]
  | load v => cases h; simp [gain]
  | apply op =>
    rw [exec] at h
    split at h
    · cases h
      simp only [List.length_cons, List.length_drop, gain]
      omega
    · cases h

namespace Machine

theorem exec_netDepth {σ : Store} {code : List Instruction} {stack stack' : List Float}
    (h : exec σ code stack = (none, stack')) :
    (stack'.length : Int) = stack.length + netDepth code := by
  induction code generalizing stack with
  | nil => cases h; simp [netDepth]
  | cons i code ih =>
    cases hi : i.exec σ stack with
    | ok next =>
      rw [exec_cons_ok hi] at h
      have hrest := ih h
      have hfirst := Instruction.exec_gain hi
      simp only [netDepth, List.map_cons, List.sum_cons] at hrest ⊢
      omega
    | error e => rw [exec_cons_error hi] at h; cases h

/-! ## The stacks of a run -/

/-- The stacks that a run passes through, from the one it starts with to the one it stops at. -/
def stacksSeen (σ : Store) : List Instruction → List Float → List (List Float)
  | [], stack => [stack]
  | i :: code, stack =>
    stack ::
      match i.exec σ stack with
      | .ok next => stacksSeen σ code next
      | .error _ => []

theorem stacksSeen_cons_ok {σ : Store} {i : Instruction} {code : List Instruction}
    {stack next : List Float} (h : i.exec σ stack = .ok next) :
    stacksSeen σ (i :: code) stack = stack :: stacksSeen σ code next := by
  rw [stacksSeen, h]

theorem self_mem_stacksSeen (σ : Store) (code : List Instruction) (stack : List Float) :
    stack ∈ stacksSeen σ code stack := by
  cases code <;> simp [stacksSeen]

theorem deepest?_le {code : List Instruction} {depth deepest d : Nat}
    (h : Program.deepest? code depth deepest = some d) : deepest ≤ d := by
  induction code generalizing depth deepest with
  | nil =>
    obtain rfl := Option.some.inj h
    omega
  | cons i code ih =>
    rw [Program.deepest?, Option.bind_eq_bind, Option.bind_eq_some_iff] at h
    obtain ⟨next, -, h⟩ := h
    have := ih h
    omega

/-- The deepest stack of code is the highest one of a run, unless a higher one was seen before. -/
theorem stacksSeen_of_deepest? (σ : Store) {code : List Instruction} {stack : List Float}
    {deepest d : Nat} (h : Program.deepest? code stack.length deepest = some d)
    (hseen : stack.length ≤ deepest) :
    (stacksSeen σ code stack).length = code.length + 1 ∧
      (∀ s ∈ stacksSeen σ code stack, s.length ≤ d) ∧
      (d = deepest ∨ ∃ s ∈ stacksSeen σ code stack, s.length = d) := by
  induction code generalizing stack deepest with
  | nil =>
    obtain rfl : deepest = d := Option.some.inj h
    simpa [stacksSeen] using hseen
  | cons i code ih =>
    have hle := deepest?_le h
    rw [Program.deepest?, Option.bind_eq_bind, Option.bind_eq_some_iff] at h
    obtain ⟨depth, hdepth, h⟩ := h
    obtain ⟨next, hi, rfl⟩ := Instruction.exec_of_depthAfter? σ hdepth
    obtain ⟨hlength, hall, hsome⟩ := ih h (by omega)
    rw [stacksSeen_cons_ok hi]
    refine ⟨by simp [hlength], ?_, ?_⟩
    · intro s hs
      rcases List.mem_cons.mp hs with rfl | hs
      · omega
      · exact hall s hs
    · obtain hmax | ⟨s, hs, hd⟩ := hsome
      · by_cases hnew : deepest ≤ next.length
        · have hd : next.length = d := by omega
          exact Or.inr ⟨next, List.mem_cons_of_mem _ (self_mem_stacksSeen σ code next), hd⟩
        · exact Or.inl (by omega)
      · exact Or.inr ⟨s, List.mem_cons_of_mem _ hs, hd⟩

end Machine

/-! ## Programs -/

namespace Program

/-- A program that is not empty reaches a stack with a value. -/
theorem maxDepth?_eq_zero_iff {p : Program} {d : Nat} (h : p.maxDepth? = some d) :
    d = 0 ↔ p.code = [] := by
  obtain ⟨code⟩ := p
  cases code with
  | nil =>
    obtain rfl := Option.some.inj h
    simp
  | cons i code =>
    rw [maxDepth?, deepest?, Option.bind_eq_bind, Option.bind_eq_some_iff] at h
    obtain ⟨depth, hdepth, h⟩ := h
    have hpos : 0 < depth := by
      cases i with
      | literal x => cases hdepth; omega
      | load v => cases hdepth; omega
      | apply op =>
        rw [Instruction.depthAfter?] at hdepth
        split at hdepth
        · cases hdepth; omega
        · cases hdepth
    have := Machine.deepest?_le h
    simp
    omega

/-- The stacks of a run of a program from an empty stack, and the highest of them. -/
theorem stacksSeen_of_maxDepth? (σ : Store) {p : Program} {d : Nat} (h : p.maxDepth? = some d) :
    (Machine.stacksSeen σ p.code []).length = p.size + 1 ∧
      (∀ s ∈ Machine.stacksSeen σ p.code [], s.length ≤ d) ∧
      ∃ s ∈ Machine.stacksSeen σ p.code [], s.length = d := by
  have hempty : deepest? p.code ([] : List Float).length 0 = some d := h
  obtain ⟨hlength, hall, hsome⟩ := Machine.stacksSeen_of_deepest? σ hempty (Nat.le_refl 0)
  refine ⟨hlength, hall, ?_⟩
  obtain rfl | hsome := hsome
  · exact ⟨[], Machine.self_mem_stacksSeen σ p.code [], rfl⟩
  · exact hsome

theorem maxDepth?_eq_none_iff (σ : Store) (p : Program) :
    p.maxDepth? = none ↔ ∃ e, (Machine.exec σ p.code []).1 = some e := by
  rw [← Option.not_isSome_iff_eq_none, isSome_maxDepth?, ← Option.isSome_iff_exists]
  cases hexec : Machine.exec σ p.code [] with
  | mk error stack =>
    cases error with
    | none =>
      have hheight : heightAfter? p.code 0 = some stack.length := heightAfter?_of_exec hexec
      simp [hheight]
    | some e =>
      cases hheight : heightAfter? p.code 0 with
      | none => simp
      | some k =>
        have hempty : heightAfter? p.code ([] : List Float).length = some k := hheight
        obtain ⟨stack', hdone, -⟩ := Machine.exec_of_heightAfter? σ hempty
        rw [hexec] at hdone
        cases hdone

end Program

namespace Machine

/-- What an evaluation says, from how the run on an empty stack ended. -/
theorem evaluate_fst_eq (m : Machine) (σ : Store) (p : Program) :
    (m.evaluate σ p).1 =
      match (exec σ p.code []).1 with
      | some e => .error e
      | none => result (exec σ p.code []).2 := by
  have hclear : m.clear.stack = [] := rfl
  rw [evaluate, hclear]
  rcases exec σ p.code [] with ⟨_ | e, stack⟩ <;> rfl

theorem result_eq_error_iff {stack : List Float} {e : EvalError} :
    result stack = .error e ↔ stack.length ≠ 1 ∧ e = .unbalanced stack.length := by
  rcases stack with _ | ⟨x, _ | ⟨y, stack⟩⟩ <;> simp [result, eq_comm]

/-- Operands are missing in an evaluation where they are missing in its run. -/
theorem evaluate_eq_missing_iff (m : Machine) (σ : Store) (p : Program) {name arity k} :
    (m.evaluate σ p).1 = .error (.missingOperands name arity k) ↔
      (exec σ p.code []).1 = some (.missingOperands name arity k) := by
  rw [evaluate_fst_eq]
  rcases exec σ p.code [] with ⟨_ | e, stack⟩
  · simp [result_eq_error_iff]
  · simp

/-- A run says nothing of the height it ends at, so only its end tells an evaluation of it. -/
theorem evaluate_eq_unbalanced_iff (m : Machine) (σ : Store) (p : Program) {d : Nat} :
    (m.evaluate σ p).1 = .error (.unbalanced d) ↔
      ∃ stack, exec σ p.code [] = (none, stack) ∧ stack.length = d ∧ d ≠ 1 := by
  rw [evaluate_fst_eq]
  cases hrun : exec σ p.code [] with
  | mk error stack =>
    cases error with
    | none =>
      simp only [result_eq_error_iff, EvalError.unbalanced.injEq]
      constructor
      · rintro ⟨hone, rfl⟩
        exact ⟨stack, rfl, rfl, hone⟩
      · rintro ⟨_, h, rfl, hone⟩
        obtain rfl := (Prod.mk.inj h).2
        exact ⟨hone, rfl⟩
    | some e =>
      have hfails : (exec σ p.code []).1 = some e := by rw [hrun]
      obtain ⟨before, op, after, found, -, -, -, rfl⟩ := exec_fails_iff.mp hfails
      simp

/-- The first operator that takes more values than the run has left is the one that is named. -/
theorem evaluate_eq_missing_iff_first (m : Machine) (σ : Store) (p : Program) {name arity k} :
    (m.evaluate σ p).1 = .error (.missingOperands name arity k) ↔
      ∃ before op after stack, p.code = before ++ .apply op :: after ∧
        exec σ before [] = (none, stack) ∧ stack.length = k ∧ k < op.arity ∧ op.name = name ∧
        op.arity = arity := by
  rw [evaluate_eq_missing_iff, exec_fails_iff]
  constructor
  · rintro ⟨before, op, after, found, hcode, hbefore, hfew, he⟩
    obtain ⟨rfl, rfl, rfl⟩ := EvalError.missingOperands.inj he
    exact ⟨before, op, after, found, hcode, hbefore, rfl, hfew, rfl, rfl⟩
  · rintro ⟨before, op, after, found, hcode, hbefore, rfl, hfew, rfl, rfl⟩
    exact ⟨before, op, after, found, hcode, hbefore, hfew, rfl⟩

/-- The height that an evaluation ends at is known without running. -/
theorem evaluate_eq_unbalanced_iff_netDepth (m : Machine) (σ : Store) (p : Program) {d : Nat} :
    (m.evaluate σ p).1 = .error (.unbalanced d) ↔
      p.maxDepth? ≠ none ∧ netDepth p.code = d ∧ d ≠ 1 := by
  have hfails := Program.maxDepth?_eq_none_iff σ p
  rw [evaluate_eq_unbalanced_iff]
  constructor
  · rintro ⟨stack, hrun, hd, hone⟩
    have hnet := exec_netDepth hrun
    rw [hrun] at hfails
    simp only [List.length_nil] at hnet
    refine ⟨by simp [hfails], ?_, hone⟩
    omega
  · rintro ⟨hsome, hnet, hone⟩
    cases hrun : exec σ p.code [] with
    | mk error stack =>
      cases error with
      | none =>
        have hheight := exec_netDepth hrun
        simp only [List.length_nil] at hheight
        exact ⟨stack, rfl, by omega, hone⟩
      | some e =>
        rw [hrun] at hfails
        exact absurd (hfails.mpr ⟨e, rfl⟩) hsome

end Machine

/-- A failure depends on the shape of a program alone. Whatever machine runs a program under
whatever store, it fails with the same error or not at all. Operands are missing exactly where
the deepest stack is not defined; the error names the first operator that takes more values than
the stack then holds, and how many there are. Otherwise the evaluation fails exactly if the net
depth is not one, and tells it. The deepest stack, where defined, is the height of the highest
stack of the run. -/
theorem Program.failures_follow_shape (p : Program) (m m' : Machine) (σ τ : Store) :
    (∀ e, (m.evaluate σ p).1 = .error e ↔ (m'.evaluate τ p).1 = .error e) ∧
    ((∃ name arity k, (m.evaluate σ p).1 = .error (.missingOperands name arity k)) ↔
      p.maxDepth? = none) ∧
    (∀ name arity k, (m.evaluate σ p).1 = .error (.missingOperands name arity k) ↔
      ∃ before op after stack, p.code = before ++ .apply op :: after ∧
        Machine.exec σ before m.clear.stack = (none, stack) ∧ stack.length = k ∧
        k < op.arity ∧ op.name = name ∧ op.arity = arity) ∧
    (∀ d, (m.evaluate σ p).1 = .error (.unbalanced d) ↔
      p.maxDepth? ≠ none ∧ netDepth p.code = d ∧ d ≠ 1) ∧
    ∀ d, p.maxDepth? = some d →
      (Machine.stacksSeen σ p.code m.clear.stack).length = p.size + 1 ∧
      (∀ s ∈ Machine.stacksSeen σ p.code m.clear.stack, s.length ≤ d) ∧
      (∃ s ∈ Machine.stacksSeen σ p.code m.clear.stack, s.length = d) ∧
      (d = 0 ↔ p.code = []) := by
  have hlength : ([] : List Float).length = ([] : List Float).length := rfl
  have hshape := Machine.exec_shape σ τ p.code hlength
  refine ⟨?same, ?missing, ?first, ?unbalanced, ?deepest⟩
  case same =>
    intro e
    rw [Machine.evaluate_fst_eq, Machine.evaluate_fst_eq, ← hshape.1]
    cases (Machine.exec σ p.code []).1 with
    | some e' => rfl
    | none => simp only [Machine.result_eq_error_iff, hshape.2]
  case missing =>
    rw [Program.maxDepth?_eq_none_iff σ]
    constructor
    · rintro ⟨name, arity, k, h⟩
      exact ⟨_, (Machine.evaluate_eq_missing_iff m σ p).mp h⟩
    · rintro ⟨e, h⟩
      obtain ⟨before, op, after, found, -, -, -, rfl⟩ := Machine.exec_fails_iff.mp h
      exact ⟨_, _, _, (Machine.evaluate_eq_missing_iff m σ p).mpr h⟩
  case first => exact fun name arity k => Machine.evaluate_eq_missing_iff_first m σ p
  case unbalanced => exact fun d => Machine.evaluate_eq_unbalanced_iff_netDepth m σ p
  case deepest =>
    intro d hd
    obtain ⟨hlength, hall, hsome⟩ := Program.stacksSeen_of_maxDepth? σ hd
    exact ⟨hlength, hall, hsome, Program.maxDepth?_eq_zero_iff hd⟩

end ImplicitPlot.Expression

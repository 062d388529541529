import ImplicitPlot.Proofs.Expression.Climbing
import ImplicitPlot.Proofs.Expression.Shape
import ImplicitPlot.Proofs.Expression.Steps

/-
  The variables of a program. The code of an expression loads a variable for each variable token
  of its text, in the order of the text, and nothing else (`loads_of_compile`). Operators change
  their order on the way into the code, variables do not: a scan writes a load out at once.

  A program sees a store through its loads alone. `Program.fill` puts numbers in their place, and
  with the values that the loaded variables have, the filled program is worth the same under any
  store (`Machine.evaluate_eq_fill`).
-/
namespace ImplicitPlot.Expression

open Symbols

/-! ## Variable tokens -/

/-- The variable that a token names. -/
def OperandToken.var? : OperandToken → Option Variable
  | «variable» v => some v
  | openGroup | number _ | prefixed _ | call _ => none

/-- Whether an operand is still needed behind a token that stands where one is. -/
def OperandToken.needsOperand : OperandToken → Bool
  | number _ | «variable» _ => false
  | openGroup | prefixed _ | call _ => true

/-- Whether an operand is needed behind a token that stands behind one. -/
def OperatorToken.needsOperand : OperatorToken → Bool
  | infixed _ | comma => true
  | closeGroup | suffixed _ => false

/-- The variable tokens of a text that starts where an operand is needed, or behind one: what is
written and the variable that it names. -/
def variableTokens (V : Vocabulary) (needsOperand : Bool) (cs : List Char) :
    List (List Char × Variable) :=
  match needsOperand with
  | true =>
    match h : readOperand? V (Text.dropBlanks cs) with
    | some (token, n) =>
      have := readOperand?_shorter h
      (token.var?.map fun v => ((Text.dropBlanks cs).take n, v)).toList ++
        variableTokens V token.needsOperand ((Text.dropBlanks cs).drop n)
    | none => []
  | false =>
    match h : readOperator? V (Text.dropBlanks cs) with
    | some (token, n) =>
      have := readOperator?_shorter h
      variableTokens V token.needsOperand ((Text.dropBlanks cs).drop n)
    | none => []
termination_by cs.length
decreasing_by all_goals exact this

theorem variableTokens_operand (V : Vocabulary) (cs : List Char) :
    variableTokens V true cs =
      match readOperand? V (Text.dropBlanks cs) with
      | some (token, n) =>
        (token.var?.map fun v => ((Text.dropBlanks cs).take n, v)).toList ++
          variableTokens V token.needsOperand ((Text.dropBlanks cs).drop n)
      | none => [] := by
  rw [variableTokens]
  split <;> rename_i h <;> simp only [h]

theorem variableTokens_operator (V : Vocabulary) (cs : List Char) :
    variableTokens V false cs =
      match readOperator? V (Text.dropBlanks cs) with
      | some (token, n) => variableTokens V token.needsOperand ((Text.dropBlanks cs).drop n)
      | none => [] := by
  rw [variableTokens]
  split <;> rename_i h <;> simp only [h]

theorem variableTokens_blank {cs : List Char} (h : Text.dropBlanks cs = []) (V : Vocabulary)
    (needs : Bool) : variableTokens V needs cs = [] := by
  cases needs with
  | true =>
    rw [variableTokens_operand, h]
    rfl
  | false =>
    rw [variableTokens_operator, h]
    rfl

/-- A variable token is a name of the vocabulary, and names its variable. -/
theorem get?_of_operandToken? {V : Vocabulary} {cs : List Char} {token : OperandToken} {n : Nat}
    (h : operandToken? V cs = some (token, n)) {v : Variable} (hv : token.var? = some v) :
    V.vars.get? (cs.take n) = some v := by
  cases cs with
  | nil => cases h
  | cons c cs =>
    have hlongest : V.vars.longest? (c :: cs) = some (n, v) := by
      rw [operandToken?] at h
      split at h
      · cases h
        cases hv
      split at h
      · cases h
        cases hv
      cases hbefore : V.prefixes.longest? (c :: cs) with
      | some found =>
        rw [hbefore] at h
        cases h
        cases hv
      | none =>
        cases hcall : call? V (c :: cs) with
        | some found =>
          rw [hbefore, hcall] at h
          cases h
          unfold call? at hcall
          split at hcall
          · split at hcall
            · cases hcall
              cases hv
            · cases hcall
          · cases hcall
        | none =>
          cases hvar : V.vars.longest? (c :: cs) with
          | none =>
            rw [hbefore, hcall, hvar] at h
            cases h
          | some found =>
            rw [hbefore, hcall, hvar] at h
            cases h
            cases hv
            rfl
    have hspec := Forest.longest?_spec V.vars.forest (c :: cs)
    rw [show V.vars.forest.longest? (c :: cs) = some (n, v) from hlongest] at hspec
    exact hspec.2.1

theorem get?_of_mem_variableTokens {V : Vocabulary} {needs : Bool} {cs : List Char}
    {name : List Char} {v : Variable} (h : (name, v) ∈ variableTokens V needs cs) :
    V.vars.get? name = some v := by
  induction hlen : cs.length using Nat.strongRecOn generalizing needs cs with
  | ind k ih =>
    cases needs with
    | true =>
      rw [variableTokens_operand] at h
      cases htoken : readOperand? V (Text.dropBlanks cs) with
      | none =>
        rw [htoken] at h
        cases h
      | some found =>
        rw [htoken] at h
        obtain hhere | hlater := List.mem_append.mp h
        · obtain ⟨w, hw, heq⟩ := Option.map_eq_some_iff.mp (Option.mem_toList.mp hhere)
          cases heq
          rw [readOperand?_eq] at htoken
          exact get?_of_operandToken? htoken hw
        · exact ih _ (hlen ▸ readOperand?_shorter htoken) hlater rfl
    | false =>
      rw [variableTokens_operator] at h
      cases htoken : readOperator? V (Text.dropBlanks cs) with
      | none =>
        rw [htoken] at h
        cases h
      | some found =>
        rw [htoken] at h
        exact ih _ (hlen ▸ readOperator?_shorter htoken) h rfl

/-! ## Loads -/

/-- The variable that an instruction loads. -/
def Instruction.loaded? : Instruction → Option Variable
  | load v => some v
  | literal _ | apply _ => none

/-- The variables that code loads, one for each load. -/
def loads (code : List Instruction) : List Variable := code.filterMap Instruction.loaded?

theorem loads_append (code code' : List Instruction) :
    loads (code ++ code') = loads code ++ loads code' := List.filterMap_append

theorem loads_reverse_apply (op : Operator) (out : List Instruction) :
    loads (.apply op :: out).reverse = loads out.reverse := by
  rw [List.reverse_cons, loads_append]
  exact List.append_nil _

namespace Scan

/-- Operators that are written out load nothing. -/
theorem loads_emit (ops : List Operator) (out : List Instruction) :
    loads (emit ops out).reverse = loads out.reverse := by
  induction ops generalizing out with
  | nil => rfl
  | cons op ops ih => rw [emit_cons, ih, loads_reverse_apply]

/-- A token where an operand is needed adds the load of the variable that it names. -/
theorem OperandStep.loads_eq {s s' : Scan} {token : OperandToken} (h : OperandStep s token s')
    (hneeds : s.needsOperand = true) :
    loads s'.out.reverse = loads s.out.reverse ++ token.var?.toList ∧
      s'.needsOperand = token.needsOperand := by
  cases h with
  | number text x =>
    refine ⟨?_, rfl⟩
    rw [List.reverse_cons, loads_append]
    rfl
  | load v =>
    refine ⟨?_, rfl⟩
    rw [List.reverse_cons, loads_append]
    rfl
  | openGroup offset => exact ⟨(List.append_nil _).symm, hneeds⟩
  | call offset f => exact ⟨(List.append_nil _).symm, hneeds⟩
  | prefixed op => exact ⟨(List.append_nil _).symm, hneeds⟩

/-- A token behind an operand loads nothing. -/
theorem OperatorStep.loads_eq {out : List Instruction} {ops : List Operator}
    {pending : List Pending} {token : OperatorToken} {s' : Scan}
    (h : OperatorStep out false ops pending token s') :
    loads s'.out.reverse = loads out.reverse ∧ s'.needsOperand = token.needsOperand := by
  cases h with
  | suffixed _ op => exact ⟨loads_reverse_apply op out, rfl⟩
  | infixed _ op => exact ⟨loads_emit ops out, rfl⟩
  | comma _ o commas callee => exact ⟨loads_emit ops out, rfl⟩
  | closeGroup _ o commas callee hcount =>
    refine ⟨?_, rfl⟩
    cases callee with
    | none => exact loads_emit ops out
    | some f =>
      show loads (.apply f :: emit ops out).reverse = loads out.reverse
      rw [loads_reverse_apply, loads_emit]

/-- A scan loads the variables of the tokens that it reads. -/
theorem run_loads {V : Vocabulary} {offset : Nat} {cs : List Char} {s s' : Scan}
    (h : s.run V offset cs = .ok s') :
    loads s'.out.reverse =
      loads s.out.reverse ++ (variableTokens V s.needsOperand cs).map Prod.snd := by
  induction hlen : cs.length using Nat.strongRecOn generalizing offset cs s with
  | ind k ih =>
    cases hcs : Text.dropBlanks cs with
    | nil =>
      rw [run_blank hcs] at h
      cases h
      rw [variableTokens_blank hcs, List.map_nil, List.append_nil]
    | cons c rest =>
      rw [run_step hcs] at h
      split at h
      · rename_i n t hstep
        have hrest := ih _ (hlen ▸ drop_length_lt hcs (step_pos hstep)) h rfl
        obtain ⟨hneeds, token, htoken, ht⟩ | ⟨hneeds, token, htoken, ht⟩ := step_cases hstep
        · obtain ⟨hloads, hneeds'⟩ := (operandStep ht).loads_eq hneeds
          rw [← hcs, ← readOperand?_eq] at htoken
          rw [hneeds, variableTokens_operand, htoken, hrest, hloads, hneeds', hcs,
            List.map_append, List.append_assoc]
          cases token.var? <;> rfl
        · obtain ⟨out, pending, needs⟩ := s
          have hfalse : needs = false := hneeds
          subst hfalse
          obtain ⟨ops, rest', -, hop⟩ := operatorStep ht
          obtain ⟨hloads, hneeds'⟩ := hop.loads_eq
          rw [← hcs, ← readOperator?_eq] at htoken
          rw [variableTokens_operator, htoken, hrest, hloads, hneeds', hcs]
      · cases h

theorem finish_loads {s : Scan} {length : Nat} {out : List Instruction}
    (h : s.finish length = .ok out) : loads out.reverse = loads s.out.reverse := by
  rw [finish] at h
  split at h
  · cases h
  · obtain ⟨ops, -, rfl⟩ := exists_drain h
    exact loads_emit ops s.out

end Scan

/-- A program loads the variables of the tokens of its text, one after the other. -/
theorem loads_of_compile {V : Vocabulary} {text : List Char} {p : Program}
    (h : compile V text = .ok p) : loads p.code = (variableTokens V true text).map Prod.snd := by
  unfold compile at h
  cases hrun : Scan.start.run V 0 text with
  | error e =>
    rw [hrun] at h
    cases h
  | ok s =>
    rw [hrun] at h
    cases hout : s.finish (Text.byteLength text) with
    | error e =>
      simp only [bind, Except.bind, hout] at h
      cases h
    | ok out =>
      simp only [bind, Except.bind, hout] at h
      cases h
      have hloads := Scan.run_loads hrun
      rw [← Scan.finish_loads hout] at hloads
      exact hloads

/-! ## Values in place of loads -/

/-- The code with numbers in the place of its first loads. -/
def fill : List Instruction → List Float → List Instruction
  | .load _ :: code, x :: xs => .literal x :: fill code xs
  | i :: code, xs => i :: fill code xs
  | [], _ => []

/-- The program with numbers in the place of its first loads. -/
def Program.fill (p : Program) (xs : List Float) : Program := ⟨Expression.fill p.code xs⟩

namespace Machine

/-- Code runs as it does with the values of its variables in their places. -/
theorem exec_eq_fill (σ τ : Store) (code : List Instruction) (stack : List Float) :
    exec σ code stack = exec τ (fill code ((loads code).map σ.read)) stack := by
  induction code generalizing stack with
  | nil => rfl
  | cons i code ih =>
    cases i with
    | literal x => exact ih (x :: stack)
    | load v => exact ih (σ.read v :: stack)
    | apply op =>
      show exec σ (.apply op :: code) stack =
        exec τ (.apply op :: fill code ((loads code).map σ.read)) stack
      cases h : (Instruction.apply op).exec σ stack with
      | ok next =>
        have h' : (Instruction.apply op).exec τ stack = .ok next := h
        rw [exec_cons_ok h, exec_cons_ok h', ih]
      | error e =>
        have h' : (Instruction.apply op).exec τ stack = .error e := h
        rw [exec_cons_error h, exec_cons_error h']

/-- The value of a program is that of the program with the values of its variables in their
places, which no machine and no store has a part in. -/
theorem evaluate_eq_fill (m : Machine) (σ : Store) (p : Program) :
    (m.evaluate σ p).1 = (p.fill ((loads p.code).map σ.read)).value .empty := by
  have hrun := exec_eq_fill σ .empty p.code []
  rw [Program.value, evaluate_fst_eq, evaluate_fst_eq, hrun]
  rfl

end Machine

end ImplicitPlot.Expression

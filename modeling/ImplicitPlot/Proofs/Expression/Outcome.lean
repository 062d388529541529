import ImplicitPlot.Proofs.Expression.Climbing
import ImplicitPlot.Proofs.Expression.Steps
import ImplicitPlot.Proofs.Expression.Waiting

/-
  What becomes of a scan: `code?` is the code with which it ends, if it ends well. Here is what
  one token does to it, in the words of the parser's token readers: where an operand is needed
  (`code?_operand`) and behind one (`code?_operator`), for each kind of token on a stack whose
  top is known. A group that has more arguments than it takes never closes, so a scan over such
  a group fails (`code?_overfull`).
-/
namespace ImplicitPlot.Expression.Scan

open Symbols

/-- The code with which the scan of a text ends, last instruction first. -/
def code? (V : Vocabulary) (offset : Nat) (cs : List Char) (s : Scan) :
    Option (List Instruction) :=
  match s.run V offset cs with
  | .ok s => (s.finish 0).toOption
  | .error _ => none

/-- Whether a scan finishes does not depend on the length of its text. -/
theorem finish_toOption (s : Scan) (m n : Nat) : (s.finish m).toOption = (s.finish n).toOption := by
  unfold finish
  split <;> rfl

theorem compile_toOption (V : Vocabulary) (text : List Char) :
    (compile V text).toOption = (start.code? V 0 text).map fun out => ⟨out.reverse⟩ := by
  unfold compile code?
  cases start.run V 0 text with
  | error e => rfl
  | ok s =>
    dsimp only [bind, Except.bind]
    rw [finish_toOption s 0 (Text.byteLength text)]
    cases s.finish (Text.byteLength text) <;> rfl

/-! ## One token -/

theorem code?_blank {V : Vocabulary} {cs : List Char} (h : Text.dropBlanks cs = [])
    (offset : Nat) (s : Scan) : s.code? V offset cs = (s.finish 0).toOption := by
  rw [code?, run_blank h]

theorem code?_step {V : Vocabulary} {cs rest : List Char} {c : Char}
    (h : Text.dropBlanks cs = c :: rest) (offset : Nat) :
    ∃ here, ∀ s : Scan, s.code? V offset cs =
      match s.step V here c rest with
      | .ok (n, s') =>
        s'.code? V (here + Text.byteLength ((c :: rest).take n)) ((c :: rest).drop n)
      | .error _ => none := by
  refine ⟨offset + Text.byteLength (cs.takeWhile Text.isBlank), fun s => ?_⟩
  rw [code?, run_step h]
  cases s.step V (offset + Text.byteLength (cs.takeWhile Text.isBlank)) c rest <;> rfl

theorem operandToken?_of_operandAt? {V : Vocabulary} {cs : List Char} {token : OperandToken}
    {rest : Shorter cs} (h : operandAt? V cs = some (token, rest)) :
    ∃ c cs' n, Text.dropBlanks cs = c :: cs' ∧ operandToken? V (c :: cs') = some (token, n) ∧
      rest.1 = (c :: cs').drop n := by
  unfold operandAt? at h
  split at h
  · rename_i token' n hread
    cases h
    rw [readOperand?_eq] at hread
    obtain ⟨c, cs', hcs⟩ : ∃ c cs', Text.dropBlanks cs = c :: cs' := by
      refine List.exists_cons_of_ne_nil fun hnil => ?_
      rw [hnil] at hread
      cases hread
    exact ⟨c, cs', n, hcs, hcs ▸ hread, congrArg (List.drop n) hcs⟩
  · cases h

theorem operatorToken?_of_operatorAt? {V : Vocabulary} {cs : List Char} {token : OperatorToken}
    {rest : Shorter cs} (h : operatorAt? V cs = some (token, rest)) :
    ∃ c cs' n, Text.dropBlanks cs = c :: cs' ∧ operatorToken? V (c :: cs') = some (token, n) ∧
      rest.1 = (c :: cs').drop n := by
  unfold operatorAt? at h
  split at h
  · rename_i token' n hread
    cases h
    rw [readOperator?_eq] at hread
    obtain ⟨c, cs', hcs⟩ : ∃ c cs', Text.dropBlanks cs = c :: cs' := by
      refine List.exists_cons_of_ne_nil fun hnil => ?_
      rw [hnil] at hread
      cases hread
    exact ⟨c, cs', n, hcs, hcs ▸ hread, congrArg (List.drop n) hcs⟩
  · cases h

theorem operandToken?_of_none {V : Vocabulary} {cs : List Char} (h : operandAt? V cs = none) :
    operandToken? V (Text.dropBlanks cs) = none := by
  unfold operandAt? at h
  split at h
  · cases h
  · rename_i hread; rwa [readOperand?_eq] at hread

theorem operatorToken?_of_none {V : Vocabulary} {cs : List Char} (h : operatorAt? V cs = none) :
    operatorToken? V (Text.dropBlanks cs) = none := by
  unfold operatorAt? at h
  split at h
  · cases h
  · rename_i hread; rwa [readOperator?_eq] at hread

theorem code?_operand {V : Vocabulary} {cs : List Char} {token : OperandToken} {rest : Shorter cs}
    (h : operandAt? V cs = some (token, rest)) (offset : Nat) (out : List Instruction)
    (pending : List Pending) :
    ∃ first last offset', code? V offset cs ⟨out, pending, true⟩ =
      (operand ⟨out, pending, true⟩ first last token).toOption.bind (code? V offset' rest.1) := by
  obtain ⟨c, cs', n, hcs, htoken, hrest⟩ := operandToken?_of_operandAt? h
  obtain ⟨here, hstep⟩ := code?_step (V := V) hcs offset
  refine ⟨here, here + Text.byteLength ((c :: cs').take n),
    here + Text.byteLength ((c :: cs').take n), ?_⟩
  rw [hstep, step, if_pos rfl, htoken, hrest]
  dsimp only
  cases operand ⟨out, pending, true⟩ here _ token <;> rfl

theorem code?_operator {V : Vocabulary} {cs : List Char} {token : OperatorToken}
    {rest : Shorter cs} (h : operatorAt? V cs = some (token, rest)) (offset : Nat)
    (out : List Instruction) (pending : List Pending) :
    ∃ here offset', code? V offset cs ⟨out, pending, false⟩ =
      (operator ⟨out, pending, false⟩ here token).toOption.bind (code? V offset' rest.1) := by
  obtain ⟨c, cs', n, hcs, htoken, hrest⟩ := operatorToken?_of_operatorAt? h
  obtain ⟨here, hstep⟩ := code?_step (V := V) hcs offset
  refine ⟨here, here + Text.byteLength ((c :: cs').take n), ?_⟩
  rw [hstep, step, if_neg Bool.false_ne_true, htoken, hrest]
  dsimp only
  cases operator ⟨out, pending, false⟩ here token <;> rfl

theorem code?_operand_none {V : Vocabulary} {cs : List Char} (h : operandAt? V cs = none)
    (offset : Nat) (out : List Instruction) (pending : List Pending) :
    code? V offset cs ⟨out, pending, true⟩ = none := by
  have htoken := operandToken?_of_none h
  rcases hcs : Text.dropBlanks cs with _ | ⟨c, cs'⟩
  · rw [code?_blank hcs]; rfl
  · rw [hcs] at htoken
    obtain ⟨here, hstep⟩ := code?_step (V := V) hcs offset
    rw [hstep, step, if_pos rfl, htoken]

theorem code?_operator_none {V : Vocabulary} {cs : List Char} (h : operatorAt? V cs = none)
    (hne : Text.dropBlanks cs ≠ []) (offset : Nat) (out : List Instruction)
    (pending : List Pending) : code? V offset cs ⟨out, pending, false⟩ = none := by
  have htoken := operatorToken?_of_none h
  obtain ⟨c, cs', hcs⟩ := List.exists_cons_of_ne_nil hne
  rw [hcs] at htoken
  obtain ⟨here, hstep⟩ := code?_step (V := V) hcs offset
  rw [hstep, step, if_neg Bool.false_ne_true, htoken]

/-! ## Tokens on a known stack -/

variable {V : Vocabulary} {cs : List Char} {rest : Shorter cs}

theorem code?_suffixed {op : Operator} (h : operatorAt? V cs = some (.suffixed op, rest))
    (offset : Nat) (out : List Instruction) (pending : List Pending) :
    ∃ offset', code? V offset cs ⟨out, pending, false⟩ =
      code? V offset' rest.1 ⟨.apply op :: out, pending, false⟩ := by
  obtain ⟨here, offset', hcode⟩ := code?_operator h offset out pending
  exact ⟨offset', hcode⟩

theorem code?_infixed {op : Operator} (h : operatorAt? V cs = some (.infixed op, rest))
    (offset : Nat) (out : List Instruction) {ops : List Operator} {pending : List Pending}
    (hops : ∀ o ∈ ops, op.priority ≤ o.priority) (htop : TopBelow op.priority pending) :
    ∃ offset', code? V offset cs ⟨out, waiting ops pending, false⟩ =
      code? V offset' rest.1 ⟨emit ops out, .operator op :: pending, true⟩ := by
  obtain ⟨here, offset', hcode⟩ := code?_operator h offset out (waiting ops pending)
  rw [operator, flushTighter_waiting hops, flushTighter_of_topBelow htop] at hcode
  exact ⟨offset', hcode⟩

theorem code?_comma (h : operatorAt? V cs = some (.comma, rest)) (offset : Nat)
    (out : List Instruction) (ops : List Operator) (o commas : Nat) (callee : Option Operator)
    (pending : List Pending) :
    ∃ offset', code? V offset cs ⟨out, waiting ops (.group o commas callee :: pending), false⟩ =
      code? V offset' rest.1 ⟨emit ops out, .group o (commas + 1) callee :: pending, true⟩ := by
  obtain ⟨here, offset', hcode⟩ := code?_operator h offset out _
  rw [operator, flush_waiting, flush_group] at hcode
  exact ⟨offset', hcode⟩

theorem code?_closeGroup (h : operatorAt? V cs = some (.closeGroup, rest)) (offset : Nat)
    (out : List Instruction) (ops : List Operator) (o commas : Nat) (callee : Option Operator)
    (pending : List Pending) (hcount : commas + 1 = groupArity callee) :
    ∃ offset', code? V offset cs ⟨out, waiting ops (.group o commas callee :: pending), false⟩ =
      code? V offset' rest.1
        ⟨(callee.map Instruction.apply).toList ++ emit ops out, pending, false⟩ := by
  obtain ⟨here, offset', hcode⟩ := code?_operator h offset out _
  rw [operator, flush_waiting, flush_group] at hcode
  dsimp only at hcode
  rw [if_pos hcount] at hcode
  exact ⟨offset', hcode⟩

theorem code?_closeGroup_none (h : operatorAt? V cs = some (.closeGroup, rest)) (offset : Nat)
    (out : List Instruction) (ops : List Operator) (o commas : Nat) (callee : Option Operator)
    (pending : List Pending) (hcount : commas + 1 ≠ groupArity callee) :
    code? V offset cs ⟨out, waiting ops (.group o commas callee :: pending), false⟩ = none := by
  obtain ⟨here, offset', hcode⟩ := code?_operator h offset out _
  rw [operator, flush_waiting, flush_group] at hcode
  dsimp only at hcode
  rw [if_neg hcount] at hcode
  exact hcode

/-- Inside a group the text cannot end, nor go on with something that is no token. -/
theorem code?_none_in_group (h : operatorAt? V cs = none) (offset : Nat) (out : List Instruction)
    (ops : List Operator) (o commas : Nat) (callee : Option Operator) (pending : List Pending) :
    code? V offset cs ⟨out, waiting ops (.group o commas callee :: pending), false⟩ = none := by
  by_cases hblank : Text.dropBlanks cs = []
  · rw [code?_blank hblank, finish, if_neg Bool.false_ne_true]
    induction ops generalizing out with
    | nil => rfl
    | cons op ops ih => exact ih _
  · exact code?_operator_none h hblank offset out _

/-! ## Groups with too many arguments -/

/-- Some open group has as many commas as it takes arguments, or more. -/
def Overfull (s : Scan) : Prop :=
  ∃ o commas callee, .group o commas callee ∈ s.pending ∧ groupArity callee ≤ commas

theorem mem_of_mem_waiting {o commas : Nat} {callee : Option Operator} {ops : List Operator}
    {pending : List Pending} (h : .group o commas callee ∈ waiting ops pending) :
    .group o commas callee ∈ pending := by
  rcases List.mem_append.mp h with h | h
  · obtain ⟨op, -, hop⟩ := List.mem_map.mp h
    cases hop
  · exact h

theorem operand_overfull {s s' : Scan} (hs : s.Overfull) {token : OperandToken}
    (h : OperandStep s token s') : s'.Overfull := by
  obtain ⟨o, commas, callee, hmem, hfull⟩ := hs
  cases h with
  | number text x => exact ⟨o, commas, callee, hmem, hfull⟩
  | load v => exact ⟨o, commas, callee, hmem, hfull⟩
  | openGroup offset => exact ⟨o, commas, callee, List.mem_cons_of_mem _ hmem, hfull⟩
  | call offset f => exact ⟨o, commas, callee, List.mem_cons_of_mem _ hmem, hfull⟩
  | prefixed op => exact ⟨o, commas, callee, List.mem_cons_of_mem _ hmem, hfull⟩

theorem operator_overfull {out : List Instruction} {needs : Bool} {ops : List Operator}
    {pending : List Pending} {s' : Scan}
    (hs : Overfull ⟨out, waiting ops pending, needs⟩) {token : OperatorToken}
    (h : OperatorStep out needs ops pending token s') : s'.Overfull := by
  obtain ⟨o, commas, callee, hmem, hfull⟩ := hs
  have hrest := mem_of_mem_waiting hmem
  cases h with
  | suffixed _ op => exact ⟨o, commas, callee, hmem, hfull⟩
  | infixed _ op => exact ⟨o, commas, callee, List.mem_cons_of_mem _ hrest, hfull⟩
  | comma pending o' commas' callee' =>
    rcases List.mem_cons.mp hrest with heq | hrest
    · cases heq
      exact ⟨o, commas + 1, callee, List.mem_cons_self, Nat.le_succ_of_le hfull⟩
    · exact ⟨o, commas, callee, List.mem_cons_of_mem _ hrest, hfull⟩
  | closeGroup pending o' commas' callee' hcount =>
    rcases List.mem_cons.mp hrest with heq | hrest
    · cases heq
      omega
    · exact ⟨o, commas, callee, hrest, hfull⟩

theorem step_overfull {offset n : Nat} {c : Char} {s s' : Scan} (hs : s.Overfull)
    (h : s.step V offset c cs = .ok (n, s')) : s'.Overfull := by
  obtain ⟨-, token, -, hs'⟩ | ⟨-, token, -, hs'⟩ := step_cases h
  · exact operand_overfull hs (operandStep hs')
  · obtain ⟨out, pending, needs⟩ := s
    obtain ⟨ops, rest, rfl, hop⟩ := operatorStep hs'
    exact operator_overfull hs hop

theorem finish_overfull {s : Scan} (hs : s.Overfull) (length : Nat) :
    (s.finish length).toOption = none := by
  obtain ⟨out, pending, needs⟩ := s
  obtain ⟨o, commas, callee, hmem, hfull⟩ := hs
  rw [finish]
  split
  · rfl
  · rcases hdrain : drain pending out with e | code
    · rfl
    · obtain ⟨ops, rfl, -⟩ := exists_drain hdrain
      cases mem_of_mem_waiting hmem

/-- A scan over a group with too many arguments fails, whatever the text goes on with. -/
theorem code?_overfull {s : Scan} (hs : s.Overfull) (offset : Nat) :
    s.code? V offset cs = none := by
  rw [code?]
  rcases hrun : s.run V offset cs with e | s'
  · rfl
  · exact finish_overfull (run_preserves (fun _ _ _ _ _ _ => step_overfull) hs hrun) 0

end ImplicitPlot.Expression.Scan

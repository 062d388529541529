import ImplicitPlot.Proofs.Expression.Steps
import ImplicitPlot.Proofs.Expression.Waiting
import ImplicitPlot.Proofs.Expression.Written

/-
  Expressions inside longer texts. A scan never looks below the group that it is in, so a part of
  a text is read on top of a stack as it is read alone; only its offsets count from the start of
  the whole text (`Scan.above`, `run_above`). Where the part ends, a comma or a closing
  parenthesis must come next: an open parenthesis could make a call of its last name, and
  everything else could go on with it.

  So an expression that compiles does above a stack what it does alone: its code goes on top of
  the code that was there, and only operators wait above the stack (`run_expression`).
-/
namespace ImplicitPlot.Expression

open Symbols

/-- A pending entry in a text with more bytes in front. -/
def Pending.shift (n : Nat) : Pending → Pending
  | .operator op => .operator op
  | .group offset commas callee => .group (offset + n) commas callee

namespace Scan

/-- A scan of a part of a text, on top of what was there before the part. -/
def above (s base : Scan) (n : Nat) : Scan :=
  ⟨s.out ++ base.out, s.pending.map (.shift n) ++ base.pending, s.needsOperand⟩

theorem start_above {base : Scan} (h : base.needsOperand = true) (n : Nat) :
    start.above base n = base := by
  obtain ⟨out, pending, needs⟩ := base
  subst h
  rfl

/-! ## Runs over a known token -/

section Token

variable {V : Vocabulary} {s s' : Scan} {offset : Nat} (c : Char) (cs rest : List Char)
  (hc : Text.isBlank c = false)

include hc

/-- A step over a word is the first of a run. -/
theorem run_word (h : s.step V offset c (cs ++ rest) = .ok ((c :: cs).length, s')) :
    s.run V offset (c :: cs ++ rest) = s'.run V (offset + Text.byteLength (c :: cs)) rest := by
  rw [List.cons_append, run_cons hc, h]
  dsimp only
  rw [← List.cons_append, List.take_left, List.drop_left]

theorem run_operand {token : OperandToken} (hs : s.needsOperand = true)
    (htoken : operandToken? V (c :: cs ++ rest) = some (token, (c :: cs).length))
    (h : s.operand offset (offset + Text.byteLength (c :: cs)) token = .ok s') :
    s.run V offset (c :: cs ++ rest) = s'.run V (offset + Text.byteLength (c :: cs)) rest := by
  have hstep : s.step V offset c (cs ++ rest) = .ok ((c :: cs).length, s') := by
    rw [step, if_pos hs, ← List.cons_append, htoken]
    dsimp only
    rw [List.take_left, h]
    rfl
  exact run_word c cs rest hc hstep

theorem run_operator {token : OperatorToken} (hs : s.needsOperand = false)
    (htoken : operatorToken? V (c :: cs ++ rest) = some (token, (c :: cs).length))
    (h : s.operator offset token = .ok s') :
    s.run V offset (c :: cs ++ rest) = s'.run V (offset + Text.byteLength (c :: cs)) rest := by
  have hstep : s.step V offset c (cs ++ rest) = .ok ((c :: cs).length, s') := by
    rw [step, if_neg (Bool.eq_false_iff.mp hs), ← List.cons_append, htoken]
    dsimp only
    rw [h]
    rfl
  exact run_word c cs rest hc hstep

theorem run_operator_error {token : OperatorToken} {e : SyntaxError} (hs : s.needsOperand = false)
    (htoken : operatorToken? V (c :: cs ++ rest) = some (token, (c :: cs).length))
    (h : s.operator offset token = .error e) :
    s.run V offset (c :: cs ++ rest) = .error e := by
  have hstep : s.step V offset c (cs ++ rest) = .error e := by
    rw [step, if_neg (Bool.eq_false_iff.mp hs), ← List.cons_append, htoken]
    dsimp only
    rw [h]
    rfl
  rw [List.cons_append, run_cons hc, hstep]

end Token

/-! ## Code and stacks below -/

theorem emit_append_code (ops : List Operator) (out below : List Instruction) :
    emit ops (out ++ below) = emit ops out ++ below := by
  induction ops generalizing out with
  | nil => rfl
  | cons op ops ih => exact ih (.apply op :: out)

theorem map_shift_waiting (n : Nat) (ops : List Operator) (pending : List Pending) :
    (waiting ops pending).map (.shift n) = waiting ops (pending.map (.shift n)) := by
  induction ops with
  | nil => rfl
  | cons op ops ih => rw [waiting_cons, List.map_cons, ih]; rfl

theorem waiting_append_below (ops : List Operator) (pending below : List Pending) :
    waiting ops pending ++ below = waiting ops (pending ++ below) := by
  rw [waiting, waiting, List.append_assoc]

theorem flush_above {pending rest : List Pending} {out out' : List Instruction}
    {offset commas : Nat} {callee : Option Operator}
    (h : flush pending out = (.group offset commas callee :: rest, out')) (n : Nat)
    (below : List Pending) (code : List Instruction) :
    flush (pending.map (.shift n) ++ below) (out ++ code) =
      (.group (offset + n) commas callee :: (rest.map (.shift n) ++ below), out' ++ code) := by
  obtain ⟨ops, rest', rfl, hflush⟩ := exists_flush pending out
  rw [h, Prod.mk.injEq] at hflush
  obtain ⟨rfl, rfl⟩ := hflush
  rw [map_shift_waiting, waiting_append_below, flush_waiting, emit_append_code]
  rfl

theorem flushTighter_above {priority : Nat} {below : List Pending}
    (hbelow : TopBelow priority below) (n : Nat) (pending : List Pending) (out code : List Instruction) :
    flushTighter priority (pending.map (.shift n) ++ below) (out ++ code) =
      ((flushTighter priority pending out).1.map (.shift n) ++ below,
        (flushTighter priority pending out).2 ++ code) := by
  induction pending generalizing out with
  | nil => exact flushTighter_of_topBelow hbelow _
  | cons p pending ih =>
    cases p with
    | operator op =>
      rw [List.map_cons, List.cons_append, flushTighter, Pending.shift, flushTighter]
      by_cases h : op.priority < priority
      · rw [if_pos h, if_pos h]
        rfl
      · rw [if_neg h, if_neg h]
        exact ih (.apply op :: out)
    | group offset commas callee => rfl

/-! ## Steps above a stack -/

theorem operand_above {s s' : Scan} {first last : Nat} {token : OperandToken} (hlast : 0 < last)
    (h : s.operand first last token = .ok s') (base : Scan) (n : Nat) :
    (s.above base n).operand (first + n) (last + n) token = .ok (s'.above base n) := by
  cases token with
  | openGroup => cases h; rfl
  | call f =>
    cases h
    rw [operand, show last + n - 1 = last - 1 + n by omega]
    rfl
  | prefixed op => cases h; rfl
  | «variable» v => cases h; rfl
  | number text =>
    rw [operand] at h ⊢
    split at h
    · rename_i x hx
      cases h
      rfl
    · cases h

theorem operator_above {s s' : Scan} {offset : Nat} {token : OperatorToken}
    (h : s.operator offset token = .ok s') {base : Scan} (hbase : TopBelow 0 base.pending)
    (n : Nat) :
    (s.above base n).operator (offset + n) token = .ok (s'.above base n) := by
  cases token with
  | suffixed op => cases h; rfl
  | infixed op =>
    cases h
    have hflush := flushTighter_above (hbase.mono (Nat.zero_le op.priority)) n s.pending s.out
      base.out
    rw [operator, above, hflush]
    rfl
  | comma =>
    rw [operator] at h
    split at h
    · rename_i o commas callee pending out hflush
      cases h
      rw [operator, above, flush_above hflush]
      rfl
    · cases h
  | closeGroup =>
    rw [operator] at h
    split at h
    · rename_i o commas callee pending out hflush
      split at h
      · rename_i hcount
        cases h
        rw [operator, above, flush_above hflush]
        dsimp only
        rw [if_pos hcount, above, List.append_assoc]
      · cases h
    · cases h

/-- A step reads no more than there is. -/
theorem step_length_le {V : Vocabulary} {offset n : Nat} {c : Char} {cs : List Char} {s s' : Scan}
    (h : s.step V offset c cs = .ok (n, s')) : n ≤ (c :: cs).length := by
  obtain ⟨-, token, htoken, -⟩ | ⟨-, token, htoken, -⟩ := step_cases h
  · exact (operandToken?_writes htoken).1
  · exact (operatorToken?_writes htoken).1

section Above

variable {V : Vocabulary} (hV : V.Spelled) {d : Char} (hd : isSeparator d = true) (hopen : d ≠ '(')
  (base : Scan) (hbase : TopBelow 0 base.pending)

include hV hd hopen hbase

theorem step_above {offset k : Nat} {c : Char} {cs : List Char} {s s' : Scan}
    (h : s.step V offset c cs = .ok (k, s')) (n : Nat) (rest : List Char) :
    (s.above base n).step V (offset + n) c (cs ++ d :: rest) = .ok (k, s'.above base n) := by
  obtain ⟨hneeds, token, htoken, hs'⟩ | ⟨hneeds, token, htoken, hs'⟩ := step_cases h
  · have hlast : 0 < offset + Text.byteLength ((c :: cs).take k) := by
      obtain ⟨j, rfl⟩ : ∃ j, k = j + 1 := ⟨k - 1, by have := operandToken?_pos htoken; omega⟩
      have hc := c.utf8Size_pos
      rw [List.take_succ_cons, Text.byteLength_cons]
      omega
    have htake : (c :: (cs ++ d :: rest)).take k = (c :: cs).take k :=
      List.take_append_of_le_length (operandToken?_writes htoken).1
    rw [step, if_pos (show (s.above base n).needsOperand = true from hneeds),
      operandToken?_append hV hd hopen, htoken]
    dsimp only
    rw [htake, show offset + n + Text.byteLength ((c :: cs).take k) =
      offset + Text.byteLength ((c :: cs).take k) + n by omega, operand_above hlast hs']
    rfl
  · have hneeds' : ¬(s.above base n).needsOperand = true := Bool.eq_false_iff.mp hneeds
    rw [step, if_neg hneeds', operatorToken?_append hV hd, htoken]
    dsimp only
    rw [operator_above hs' hbase]
    rfl

/-- A part of a text is read above a stack as it is read alone. -/
theorem run_above {offset : Nat} {cs : List Char} {s s' : Scan} (h : s.run V offset cs = .ok s')
    (n : Nat) (rest : List Char) :
    (s.above base n).run V (offset + n) (cs ++ d :: rest) =
      (s'.above base n).run V (offset + n + Text.byteLength cs) (d :: rest) := by
  refine run_induction (P := fun offset cs s r => ∀ s', r = .ok s' →
    (s.above base n).run V (offset + n) (cs ++ d :: rest) =
      (s'.above base n).run V (offset + n + Text.byteLength cs) (d :: rest))
    ?_ ?_ ?_ offset cs s s' h
  · intro offset bs s hbs s' h
    cases h
    rw [run_blanks_append hbs]
  · intro offset bs c cs s e _ _ _ s' h
    cases h
  · intro offset bs c cs s k t r hbs hc hstep ih s' h
    have hk := step_length_le hstep
    have hsplit : Text.byteLength (c :: cs) =
        Text.byteLength ((c :: cs).take k) + Text.byteLength ((c :: cs).drop k) := by
      rw [← Text.byteLength_append, List.take_append_drop]
    have htake : (c :: (cs ++ d :: rest)).take k = (c :: cs).take k :=
      List.take_append_of_le_length hk
    have hdrop : (c :: (cs ++ d :: rest)).drop k = (c :: cs).drop k ++ d :: rest :=
      List.drop_append_of_le_length hk
    -- The token ends in front of the separator, so both runs go on behind the same characters.
    rw [List.append_assoc, run_blanks_append hbs, List.cons_append, run_cons hc,
      show offset + n + Text.byteLength bs = offset + Text.byteLength bs + n by omega,
      step_above hV hd hopen base hbase hstep]
    dsimp only
    rw [htake, hdrop, show offset + Text.byteLength bs + n + Text.byteLength ((c :: cs).take k) =
      offset + Text.byteLength bs + Text.byteLength ((c :: cs).take k) + n by omega, ih s' h]
    congr 1
    rw [Text.byteLength_append, hsplit]
    omega

end Above

end Scan

/-! ## Expressions above a stack -/

open Scan

/-- A text compiles exactly if its scan ends behind an operand with no group open. -/
theorem compile_eq_ok_iff {V : Vocabulary} {text : List Char} {p : Program} :
    compile V text = .ok p ↔ ∃ ops out, start.run V 0 text = .ok ⟨out, waiting ops [], false⟩ ∧
      p = ⟨(emit ops out).reverse⟩ := by
  unfold compile
  constructor
  · intro h
    rcases hrun : start.run V 0 text with e | ⟨out, pending, needs⟩
    · rw [hrun] at h
      cases h
    · rw [hrun] at h
      simp only [bind, Except.bind, finish] at h
      cases needs with
      | true => cases h
      | false =>
        rw [if_neg Bool.false_ne_true] at h
        rcases hdrain : drain pending out with e | code
        · rw [hdrain] at h
          cases h
        · obtain ⟨ops, rfl, rfl⟩ := exists_drain hdrain
          rw [hdrain] at h
          cases h
          exact ⟨ops, out, rfl, rfl⟩
  · rintro ⟨ops, out, hrun, rfl⟩
    rw [hrun]
    simp only [bind, Except.bind, finish, if_neg Bool.false_ne_true, drain_waiting]
    rfl

/-- A text that is one character is an expression where it names a variable and nothing else. -/
theorem compile_variable {V : Vocabulary} {c : Char} {v : Variable}
    (hc : c ≠ '(' ∧ c.isDigit = false ∧ Text.isBlank c = false)
    (hsign : (V.prefixes.longest? [c]).isNone = true)
    (hcall : (V.functions.longest? [c]).isNone = true)
    (hvar : V.vars.longest? [c] = some (1, v)) :
    compile V [c] = .ok ⟨[.load v]⟩ := by
  have htoken : operandToken? V [c] = some (.variable v, 1) := by
    rw [operandToken?, if_neg hc.1, if_neg (Bool.eq_false_iff.mp hc.2.1), call?,
      Option.isNone_iff_eq_none.mp hsign, Option.isNone_iff_eq_none.mp hcall, hvar]
    rfl
  have hrun : start.run V 0 [c] = .ok ⟨[.load v], [], false⟩ :=
    (run_operand c [] [] hc.2.2 rfl htoken rfl).trans (run_blank rfl _ _)
  unfold compile
  rw [hrun]
  rfl

/-- An expression above a stack, up to the comma or parenthesis behind it. -/
theorem run_expression {V : Vocabulary} (hV : V.Spelled) {text : List Char} {p : Program}
    (h : compile V text = .ok p) {d : Char} (hd : isSeparator d = true) (hopen : d ≠ '(')
    {pending : List Pending} (htop : TopBelow 0 pending) (offset : Nat) (code : List Instruction)
    (rest : List Char) :
    ∃ ops out, run V offset (text ++ d :: rest) ⟨code, pending, true⟩ =
        run V (offset + Text.byteLength text) (d :: rest) ⟨out, waiting ops pending, false⟩ ∧
      emit ops out = p.code.reverse ++ code := by
  obtain ⟨ops, out, hrun, rfl⟩ := compile_eq_ok_iff.mp h
  let base : Scan := ⟨code, pending, true⟩
  have habove := run_above hV hd hopen base htop hrun offset rest
  rw [start_above rfl, Nat.zero_add] at habove
  refine ⟨ops, out ++ code, ?_, ?_⟩
  · rw [habove, above, map_shift_waiting, waiting_append_below]
    rfl
  · rw [emit_append_code, List.reverse_reverse]

/-- White space behind an expression does not change it. -/
theorem compile_append_blanks {V : Vocabulary} (hV : V.Spelled) {text : List Char} {p : Program}
    (h : compile V text = .ok p) {bs : List Char} (hbs : ∀ b ∈ bs, Text.isBlank b = true) :
    compile V (text ++ bs) = .ok p := by
  rcases bs with _ | ⟨d, rest⟩
  · rw [List.append_nil, h]
  · have hblank : Text.isBlank d = true := hbs d List.mem_cons_self
    have hseparator : isSeparator d = true := by rw [isSeparator, hblank]; rfl
    have hopen : d ≠ '(' := by
      rintro rfl
      exact absurd hblank (by decide)
    obtain ⟨ops, out, hrun, hcode⟩ :=
      run_expression hV h hseparator hopen (topBelow_nil 0) 0 [] rest
    have hend : Text.dropBlanks (d :: rest) = [] := List.dropWhile_eq_nil_iff.mpr hbs
    rw [run_blank hend] at hrun
    refine compile_eq_ok_iff.mpr ⟨ops, out, hrun, ?_⟩
    rw [hcode, List.append_nil, List.reverse_reverse]

end ImplicitPlot.Expression

import ImplicitPlot.Proofs.Expression.Agreement
import ImplicitPlot.Proofs.Expression.Context

/-
  The last argument of an open group. When a scan stops behind an operand with a group open, the
  text behind the group's parenthesis, or behind its last comma, is an expression of its own
  (`exists_argument`).

  This goes backwards through the run. A step that ends above the group either enters the group,
  which starts the argument, or does the same without all that is below (`step_cut`). So what
  follows the argument's start is the run of a whole text (`exists_program_of_run`).
-/
namespace ImplicitPlot.Expression

open Symbols

namespace Scan

/-! ## Steps without what is below a group -/

theorem flushTighter_cut {priority : Nat} {pending top base : List Pending}
    {out : List Instruction} {o commas : Nat} {callee : Option Operator}
    (h : (flushTighter priority pending out).1 = top ++ .group o commas callee :: base) :
    ∃ top', pending = top' ++ .group o commas callee :: base ∧
      ∀ out, ∃ out', flushTighter priority top' out = (top, out') := by
  induction pending generalizing out with
  | nil =>
    rcases top with _ | ⟨p, top⟩ <;> cases h
  | cons p pending ih =>
    cases p with
    | operator op =>
      rw [flushTighter] at h
      split at h
      · rename_i hlooser
        rcases top with _ | ⟨p, top⟩
        · cases h
        · obtain ⟨rfl, hrest⟩ := List.cons.inj h
          exact ⟨.operator op :: top, congrArg _ hrest, fun out => ⟨out, if_pos hlooser⟩⟩
      · rename_i htighter
        obtain ⟨top', rfl, hcut⟩ := ih h
        refine ⟨.operator op :: top', rfl, fun out => ?_⟩
        rw [flushTighter, if_neg htighter]
        exact hcut (.apply op :: out)
    | group o' commas' callee' =>
      rcases top with _ | ⟨p, top⟩
      · exact ⟨[], h, fun out => ⟨out, rfl⟩⟩
      · obtain ⟨rfl, hrest⟩ := List.cons.inj h
        exact ⟨.group o' commas' callee' :: top, congrArg _ hrest, fun out => ⟨out, rfl⟩⟩

section Cut

variable {s s' : Scan} {top base : List Pending} {o commas : Nat} {callee : Option Operator}
  (htop : s'.pending = top ++ .group o commas callee :: base)

include htop

/-- A token that starts a group enters it; all others do the same without what is below it. -/
theorem operand_cut {first last : Nat} {token : OperandToken}
    (h : s.operand first last token = .ok s') :
    (top = [] ∧ s'.needsOperand = s.needsOperand ∧ (token = .openGroup ∨ ∃ f, token = .call f)) ∨
    ∃ top', s.pending = top' ++ .group o commas callee :: base ∧ ∀ out, ∃ out',
      operand ⟨out, top', s.needsOperand⟩ first last token = .ok ⟨out', top, s'.needsOperand⟩ := by
  cases token with
  | openGroup =>
    cases h
    rcases top with _ | ⟨p, top⟩
    · exact Or.inl ⟨rfl, rfl, Or.inl rfl⟩
    · obtain ⟨rfl, hrest⟩ := List.cons.inj htop
      exact Or.inr ⟨top, hrest, fun out => ⟨out, rfl⟩⟩
  | call f =>
    cases h
    rcases top with _ | ⟨p, top⟩
    · exact Or.inl ⟨rfl, rfl, Or.inr ⟨f, rfl⟩⟩
    · obtain ⟨rfl, hrest⟩ := List.cons.inj htop
      exact Or.inr ⟨top, hrest, fun out => ⟨out, rfl⟩⟩
  | prefixed op =>
    cases h
    rcases top with _ | ⟨p, top⟩
    · cases htop
    · obtain ⟨rfl, hrest⟩ := List.cons.inj htop
      exact Or.inr ⟨top, hrest, fun out => ⟨out, rfl⟩⟩
  | «variable» v =>
    cases h
    exact Or.inr ⟨top, htop, fun out => ⟨.load v :: out, rfl⟩⟩
  | number text =>
    rw [operand] at h
    split at h
    · rename_i x hx
      cases h
      exact Or.inr ⟨top, htop, fun out => ⟨.literal x :: out, by rw [operand, hx]⟩⟩
    · cases h

/-- A comma enters the next argument of its group; all other tokens do the same without what is
below it. -/
theorem operator_cut {offset : Nat} {token : OperatorToken}
    (h : s.operator offset token = .ok s') :
    (top = [] ∧ s'.needsOperand = true ∧ token = .comma) ∨
    ∃ top', s.pending = top' ++ .group o commas callee :: base ∧ ∀ out, ∃ out',
      operator ⟨out, top', s.needsOperand⟩ offset token = .ok ⟨out', top, s'.needsOperand⟩ := by
  cases token with
  | suffixed op =>
    cases h
    exact Or.inr ⟨top, htop, fun out => ⟨.apply op :: out, rfl⟩⟩
  | infixed op =>
    cases h
    rcases top with _ | ⟨p, top⟩
    · cases htop
    · obtain ⟨rfl, hrest⟩ := List.cons.inj htop
      obtain ⟨top', hpending, hcut⟩ := flushTighter_cut hrest
      refine Or.inr ⟨top', hpending, fun out => ?_⟩
      obtain ⟨out', hflush⟩ := hcut out
      exact ⟨out', by rw [operator, hflush]⟩
  | comma =>
    obtain ⟨ops, rest, hpending, hflush⟩ := exists_flush s.pending s.out
    rw [operator, hflush] at h
    split at h
    · rename_i o' commas' callee' pending out' hout
      cases hout
      cases h
      rcases top with _ | ⟨p, top⟩
      · exact Or.inl ⟨rfl, rfl, rfl⟩
      · obtain ⟨rfl, rfl⟩ := List.cons.inj htop
        refine Or.inr ⟨waiting ops (.group o' commas' callee' :: top), ?_, fun out => ?_⟩
        · rw [hpending, waiting_append_below]
          rfl
        · exact ⟨emit ops out, by rw [operator, flush_waiting]; rfl⟩
    · cases h
  | closeGroup =>
    obtain ⟨ops, rest, hpending, hflush⟩ := exists_flush s.pending s.out
    rw [operator, hflush] at h
    split at h
    · rename_i o' commas' callee' pending out' hout
      cases hout
      split at h
      · rename_i hcount
        cases h
        refine Or.inr ⟨waiting ops (.group o' commas' callee' :: top), ?_, fun out => ?_⟩
        · rw [hpending, waiting_append_below]
          exact congrArg _ (congrArg _ htop)
        · refine ⟨(callee'.map Instruction.apply).toList ++ emit ops out, ?_⟩
          rw [operator, flush_waiting]
          exact if_pos hcount
      · cases h
    · cases h

/-- A step that ends above a group enters it, with a parenthesis or a comma, or does the same
without what is below it. -/
theorem step_cut {V : Vocabulary} {offset n : Nat} {c : Char} {cs : List Char}
    (h : s.step V offset c cs = .ok (n, s')) :
    (top = [] ∧ s'.needsOperand = true ∧
      ∃ front d, (c :: cs).take n = front ++ [d] ∧ (d = '(' ∨ d = ',')) ∨
    ∃ top', s.pending = top' ++ .group o commas callee :: base ∧ ∀ out, ∃ out',
      step V offset c cs ⟨out, top', s.needsOperand⟩ = .ok (n, ⟨out', top, s'.needsOperand⟩) := by
  obtain ⟨hneeds, token, htoken, hs'⟩ | ⟨hneeds, token, htoken, hs'⟩ := step_cases h
  · have hwrites := (operandToken?_writes htoken).2
    rcases operand_cut htop hs' with ⟨rfl, hneeds', hstarts⟩ | ⟨top', hpending, hcut⟩
    · refine Or.inl ⟨rfl, hneeds'.trans hneeds, ?_⟩
      generalize (c :: cs).take n = word at hwrites
      rcases hstarts with rfl | ⟨f, rfl⟩
      · cases hwrites
        exact ⟨[], '(', rfl, Or.inl rfl⟩
      · cases hwrites
        exact ⟨_, '(', rfl, Or.inl rfl⟩
    · refine Or.inr ⟨top', hpending, fun out => ?_⟩
      obtain ⟨out', hout⟩ := hcut out
      refine ⟨out', ?_⟩
      rw [step, if_pos hneeds, htoken]
      dsimp only
      rw [hout]
      rfl
  · have hwrites := (operatorToken?_writes htoken).2
    rcases operator_cut htop hs' with ⟨rfl, hneeds', rfl⟩ | ⟨top', hpending, hcut⟩
    · refine Or.inl ⟨rfl, hneeds', [], ',', ?_, Or.inr rfl⟩
      generalize (c :: cs).take n = word at hwrites
      cases hwrites
      rfl
    · refine Or.inr ⟨top', hpending, fun out => ?_⟩
      obtain ⟨out', hout⟩ := hcut out
      refine ⟨out', ?_⟩
      rw [step, if_neg (Bool.eq_false_iff.mp hneeds), htoken]
      dsimp only
      rw [hout]
      rfl

end Cut

end Scan

/-! ## The last argument -/

open Scan

/-- Whether a text compiles does not depend on where it stands. -/
theorem exists_program_of_run {V : Vocabulary} {text : List Char} {offset : Nat}
    {ops : List Operator} {out : List Instruction}
    (h : start.run V offset text = .ok ⟨out, waiting ops [], false⟩) :
    ∃ p, compile V text = .ok p := by
  have hcode : start.code? V offset text = some (emit ops out) := by
    rw [code?, h]
    dsimp only
    rw [finish, if_neg Bool.false_ne_true, drain_waiting]
    rfl
  have hcompile := compile_toOption V text
  rw [code?_eq_parse?, ← code?_eq_parse? V offset, hcode] at hcompile
  rcases hresult : compile V text with e | p
  · rw [hresult] at hcompile
    cases hcompile
  · exact ⟨p, rfl⟩

/-- A part at the end of a text, behind a parenthesis or a comma, that is an expression. -/
def EndsInArgument (V : Vocabulary) (text : List Char) : Prop :=
  ∃ front d argument, text = front ++ d :: argument ∧ (d = '(' ∨ d = ',') ∧
    ∃ p, compile V argument = .ok p

theorem EndsInArgument.append {V : Vocabulary} {text : List Char} (h : EndsInArgument V text)
    (front : List Char) : EndsInArgument V (front ++ text) := by
  obtain ⟨mid, d, argument, rfl, hrest⟩ := h
  exact ⟨front ++ mid, d, argument, (List.append_assoc ..).symm, hrest⟩

/-- A run that ends behind an operand in a group starts with the group open, and then is the run of
a whole expression on top of it, or has yet to read the start of the last argument. -/
theorem run_cut {V : Vocabulary} {o commas : Nat} {callee : Option Operator}
    {ops : List Operator} {base : List Pending} {out : List Instruction} {offset : Nat}
    {cs : List Char} {s : Scan}
    (h : s.run V offset cs = .ok ⟨out, waiting ops (.group o commas callee :: base), false⟩) :
    EndsInArgument V cs ∨
    ∃ top, s.pending = top ++ .group o commas callee :: base ∧ ∀ out, ∃ out',
      run V offset cs ⟨out, top, s.needsOperand⟩ = .ok ⟨out', waiting ops [], false⟩ := by
  refine run_induction (P := fun offset cs s r =>
    r = .ok ⟨out, waiting ops (.group o commas callee :: base), false⟩ →
      EndsInArgument V cs ∨
      ∃ top, s.pending = top ++ .group o commas callee :: base ∧ ∀ out, ∃ out',
        run V offset cs ⟨out, top, s.needsOperand⟩ = .ok ⟨out', waiting ops [], false⟩)
    ?_ ?_ ?_ offset cs s h
  · intro offset bs s hbs h
    cases h
    refine Or.inr ⟨waiting ops [], (waiting_append_below ops [] _).symm, fun out => ⟨out, ?_⟩⟩
    exact run_blank (List.dropWhile_eq_nil_iff.mpr hbs) offset _
  · intro offset bs c cs s e _ _ _ h
    cases h
  · intro offset bs c cs s n s' r hbs hc hstep ih h
    have hsplit : bs ++ c :: cs = bs ++ (c :: cs).take n ++ (c :: cs).drop n := by
      rw [List.append_assoc, List.take_append_drop]
    -- What holds behind the token is carried to the place in front of it.
    rcases ih h with hargument | ⟨top, htop, hrun⟩
    · exact Or.inl (hsplit ▸ hargument.append _)
    rcases step_cut htop hstep with ⟨rfl, hneeds, front, d, hword, hd⟩ | ⟨top', hpending, hcut⟩
    · obtain ⟨out', hout'⟩ := hrun []
      rw [hneeds] at hout'
      refine Or.inl ⟨bs ++ front, d, (c :: cs).drop n, ?_, hd, exists_program_of_run hout'⟩
      rw [hsplit, hword]
      simp only [List.append_assoc, List.singleton_append]
    · refine Or.inr ⟨top', hpending, fun out => ?_⟩
      obtain ⟨out₁, hout₁⟩ := hcut out
      obtain ⟨out₂, hout₂⟩ := hrun out₁
      refine ⟨out₂, ?_⟩
      rw [run_blanks_append hbs, run_cons hc, hout₁]
      exact hout₂

/-- A text that stops behind an operand in an open group ends in the group's last argument. -/
theorem exists_argument {V : Vocabulary} {text : List Char} {o commas : Nat}
    {callee : Option Operator} {ops : List Operator} {base : List Pending}
    {out : List Instruction}
    (h : start.run V 0 text = .ok ⟨out, waiting ops (.group o commas callee :: base), false⟩) :
    EndsInArgument V text := by
  rcases run_cut h with hargument | ⟨top, htop, -⟩
  · exact hargument
  · rcases top with _ | ⟨p, top⟩ <;> cases htop

end ImplicitPlot.Expression

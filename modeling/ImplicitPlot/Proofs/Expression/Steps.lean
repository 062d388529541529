import ImplicitPlot.Proofs.Expression.Waiting

/-
  Steps and runs of a scan. `OperandStep` and `OperatorStep` say what each kind of token does to a
  scan; a step reads one token of either kind, by what the scan needs (`step_cases`). A run is one
  step after the other (`run_blank`, `run_step`), so what every step keeps holds at the end of a
  run (`run_preserves`).
-/
namespace ImplicitPlot.Expression.Scan

open Symbols

/-! ## Tokens -/

/-- What a token does where an operand is needed. -/
inductive OperandStep (s : Scan) : OperandToken → Scan → Prop where
  | number (text : List Char) (x : Float) :
      OperandStep s (.number text) { s with out := .literal x :: s.out, needsOperand := false }
  | load (v : Variable) :
      OperandStep s (.variable v) { s with out := .load v :: s.out, needsOperand := false }
  | openGroup (offset : Nat) :
      OperandStep s .openGroup { s with pending := .group offset 0 none :: s.pending }
  | call (offset : Nat) (f : Operator) :
      OperandStep s (.call f) { s with pending := .group offset 0 (some f) :: s.pending }
  | prefixed (op : Operator) :
      OperandStep s (.prefixed op) { s with pending := .operator op :: s.pending }

/-- What a token does behind an operand, to a scan with some operators on top of its stack. An
infix operator may leave looser ones in place; a comma or parenthesis writes out all of them. -/
inductive OperatorStep (out : List Instruction) (needs : Bool) (ops : List Operator) :
    List Pending → OperatorToken → Scan → Prop where
  | suffixed (pending : List Pending) (op : Operator) :
      OperatorStep out needs ops pending (.suffixed op)
        ⟨.apply op :: out, waiting ops pending, needs⟩
  | infixed (pending : List Pending) (op : Operator) :
      OperatorStep out needs ops pending (.infixed op)
        ⟨emit ops out, .operator op :: pending, true⟩
  | comma (pending : List Pending) (o commas : Nat) (callee : Option Operator) :
      OperatorStep out needs ops (.group o commas callee :: pending) .comma
        ⟨emit ops out, .group o (commas + 1) callee :: pending, true⟩
  | closeGroup (pending : List Pending) (o commas : Nat) (callee : Option Operator)
      (hcount : commas + 1 = groupArity callee) :
      OperatorStep out needs ops (.group o commas callee :: pending) .closeGroup
        ⟨(callee.map Instruction.apply).toList ++ emit ops out, pending, false⟩

theorem operandStep {s s' : Scan} {first last : Nat} {token : OperandToken}
    (h : s.operand first last token = .ok s') : OperandStep s token s' := by
  cases token with
  | openGroup => cases h; exact .openGroup first
  | call f => cases h; exact .call (last - 1) f
  | prefixed op => cases h; exact .prefixed op
  | «variable» v => cases h; exact .load v
  | number text =>
    rw [operand] at h
    split at h
    · rename_i x _
      cases h
      exact .number text x
    · simp at h

theorem operatorStep {out : List Instruction} {pending : List Pending} {needs : Bool} {s' : Scan}
    {offset : Nat} {token : OperatorToken}
    (h : operator ⟨out, pending, needs⟩ offset token = .ok s') :
    ∃ ops rest, pending = waiting ops rest ∧ OperatorStep out needs ops rest token s' := by
  cases token with
  | suffixed op =>
    cases h
    exact ⟨[], pending, rfl, .suffixed pending op⟩
  | infixed op =>
    obtain ⟨ops, rest, hpending, hflush⟩ := exists_flushTighter op.priority pending out
    rw [operator, hflush] at h
    cases h
    exact ⟨ops, rest, hpending, .infixed rest op⟩
  | comma =>
    obtain ⟨ops, rest, hpending, hflush⟩ := exists_flush pending out
    rw [operator, hflush] at h
    split at h
    · rename_i o commas callee pending' out' hout
      cases hout
      cases h
      exact ⟨ops, _, hpending, .comma pending' o commas callee⟩
    · simp at h
  | closeGroup =>
    obtain ⟨ops, rest, hpending, hflush⟩ := exists_flush pending out
    rw [operator, hflush] at h
    split at h
    · rename_i o commas callee pending' out' hout
      cases hout
      split at h
      · rename_i hcount
        cases h
        exact ⟨ops, _, hpending, .closeGroup pending' o commas callee hcount⟩
      · simp at h
    · simp at h

/-! ## Steps and runs -/

theorem step_cases {V : Vocabulary} {offset n : Nat} {c : Char} {cs : List Char} {s s' : Scan}
    (h : s.step V offset c cs = .ok (n, s')) :
    (s.needsOperand = true ∧ ∃ token, operandToken? V (c :: cs) = some (token, n) ∧
      s.operand offset (offset + Text.byteLength ((c :: cs).take n)) token = .ok s') ∨
    (s.needsOperand = false ∧ ∃ token, operatorToken? V (c :: cs) = some (token, n) ∧
      s.operator offset token = .ok s') := by
  unfold step at h
  split at h
  · rename_i hneeds
    split at h
    · rename_i token k htoken
      cases hs : s.operand offset (offset + Text.byteLength ((c :: cs).take k)) token with
      | error e => rw [hs] at h; cases h
      | ok t =>
        rw [hs] at h
        cases h
        exact Or.inl ⟨hneeds, token, htoken, hs⟩
    · cases h
  · rename_i hneeds
    split at h
    · rename_i token k htoken
      cases hs : s.operator offset token with
      | error e => rw [hs] at h; cases h
      | ok t =>
        rw [hs] at h
        cases h
        exact Or.inr ⟨Bool.eq_false_iff.mpr hneeds, token, htoken, hs⟩
    · cases h

/-- A step fails if no token starts there, or the one that does cannot stand there. -/
theorem step_error_cases {V : Vocabulary} {offset : Nat} {c : Char} {cs : List Char} {s : Scan}
    {e : SyntaxError} (h : s.step V offset c cs = .error e) :
    e = .unexpected offset c ∨
    (∃ token n last, operandToken? V (c :: cs) = some (token, n) ∧
      s.operand offset last token = .error e) ∨
    ∃ token n, operatorToken? V (c :: cs) = some (token, n) ∧
      s.operator offset token = .error e := by
  unfold step at h
  split at h
  · split at h
    · rename_i token n htoken
      cases hs : s.operand offset (offset + Text.byteLength ((c :: cs).take n)) token with
      | error e' => rw [hs] at h; cases h; exact Or.inr (Or.inl ⟨token, n, _, htoken, hs⟩)
      | ok t => rw [hs] at h; cases h
    · cases h
      exact Or.inl rfl
  · split at h
    · rename_i token n htoken
      cases hs : s.operator offset token with
      | error e' => rw [hs] at h; cases h; exact Or.inr (Or.inr ⟨token, n, htoken, hs⟩)
      | ok t => rw [hs] at h; cases h
    · cases h
      exact Or.inl rfl

theorem run_blank {V : Vocabulary} {cs : List Char} (h : Text.dropBlanks cs = []) (offset : Nat)
    (s : Scan) : s.run V offset cs = .ok s := by
  rw [run]
  split
  · rfl
  · rename_i hcs; rw [h] at hcs; cases hcs

theorem run_step {V : Vocabulary} {cs rest : List Char} {c : Char}
    (h : Text.dropBlanks cs = c :: rest) (offset : Nat) (s : Scan) :
    s.run V offset cs =
      match s.step V (offset + Text.byteLength (cs.takeWhile Text.isBlank)) c rest with
      | .ok (n, s') =>
        s'.run V (offset + Text.byteLength (cs.takeWhile Text.isBlank) +
          Text.byteLength ((c :: rest).take n)) ((c :: rest).drop n)
      | .error e => .error e := by
  rw [run]
  split
  · rename_i hcs; rw [h] at hcs; cases hcs
  · rename_i c' rest' hcs
    rw [h] at hcs
    cases hcs
    dsimp only
    split <;> rename_i hstep <;> rw [hstep]

/-- White space in front of a text is passed over. -/
theorem run_blanks_append {V : Vocabulary} {bs : List Char} (hbs : ∀ b ∈ bs, Text.isBlank b = true)
    (offset : Nat) (cs : List Char) (s : Scan) :
    s.run V offset (bs ++ cs) = s.run V (offset + Text.byteLength bs) cs := by
  have hdrop : Text.dropBlanks (bs ++ cs) = Text.dropBlanks cs :=
    List.dropWhile_append_of_pos hbs
  have htake : (bs ++ cs).takeWhile Text.isBlank = bs ++ cs.takeWhile Text.isBlank :=
    List.takeWhile_append_of_pos hbs
  rcases hcs : Text.dropBlanks cs with _ | ⟨c, rest⟩
  · rw [run_blank hcs, run_blank (hdrop.trans hcs)]
  · rw [run_step hcs, run_step (hdrop.trans hcs), htake, Text.byteLength_append, ← Nat.add_assoc]

/-- The first character of a token starts a step. -/
theorem run_cons {V : Vocabulary} {c : Char} (hc : Text.isBlank c = false) (offset : Nat)
    (cs : List Char) (s : Scan) :
    s.run V offset (c :: cs) =
      match s.step V offset c cs with
      | .ok (n, s') =>
        s'.run V (offset + Text.byteLength ((c :: cs).take n)) ((c :: cs).drop n)
      | .error e => .error e := by
  have hdrop : Text.dropBlanks (c :: cs) = c :: cs := by
    rw [Text.dropBlanks, List.dropWhile_cons, hc, if_neg Bool.false_ne_true]
  have htake : (c :: cs).takeWhile Text.isBlank = [] := by
    rw [List.takeWhile_cons, hc, if_neg Bool.false_ne_true]
  rw [run_step hdrop, htake]
  rfl

/-- A run ends at white space, or fails at a token, or goes on behind one. -/
theorem run_induction {V : Vocabulary} {P : Nat → List Char → Scan → Except SyntaxError Scan → Prop}
    (blank : ∀ offset bs s, (∀ b ∈ bs, Text.isBlank b = true) → P offset bs s (.ok s))
    (fails : ∀ offset bs c cs s e, (∀ b ∈ bs, Text.isBlank b = true) → Text.isBlank c = false →
      s.step V (offset + Text.byteLength bs) c cs = .error e →
        P offset (bs ++ c :: cs) s (.error e))
    (token : ∀ offset bs c cs s n s' r, (∀ b ∈ bs, Text.isBlank b = true) →
      Text.isBlank c = false → s.step V (offset + Text.byteLength bs) c cs = .ok (n, s') →
        P (offset + Text.byteLength bs + Text.byteLength ((c :: cs).take n))
          ((c :: cs).drop n) s' r → P offset (bs ++ c :: cs) s r)
    (offset : Nat) (cs : List Char) (s : Scan) : P offset cs s (s.run V offset cs) := by
  induction hlen : cs.length using Nat.strongRecOn generalizing offset cs s with
  | ind k ih =>
    have hbs : ∀ b ∈ cs.takeWhile Text.isBlank, Text.isBlank b = true :=
      List.all_eq_true.mp List.all_takeWhile
    have hsplit := Text.takeWhile_append_dropBlanks cs
    rcases hcs : Text.dropBlanks cs with _ | ⟨c, rest⟩
    · rw [run_blank hcs]
      rw [hcs, List.append_nil] at hsplit
      exact blank offset cs s (hsplit ▸ hbs)
    · have hc : Text.isBlank c = false := by
        have hhead := List.head?_dropWhile_not Text.isBlank cs
        rw [show cs.dropWhile Text.isBlank = c :: rest from hcs] at hhead
        simpa using hhead
      rw [hcs] at hsplit
      rw [run_step hcs]
      rcases hstep : s.step V (offset + Text.byteLength (cs.takeWhile Text.isBlank)) c rest with
        e | ⟨n, s'⟩
      · have h := fails offset _ c rest s e hbs hc hstep
        rwa [hsplit] at h
      · have hlt := drop_length_lt hcs (step_pos hstep)
        have h := token offset _ c rest s n s' _ hbs hc hstep (ih _ (hlen ▸ hlt) _ _ _ rfl)
        rwa [hsplit] at h

/-- What holds of a scan and is kept by its steps holds when it has read its text. -/
theorem run_preserves {V : Vocabulary} {P : Scan → Prop}
    (hstep : ∀ offset c cs n s s', P s → s.step V offset c cs = .ok (n, s') → P s')
    {offset : Nat} {cs : List Char} {s s' : Scan} (hs : P s) (h : s.run V offset cs = .ok s') :
    P s' := by
  refine run_induction (P := fun _ _ s r => P s → ∀ s', r = .ok s' → P s') ?_ ?_ ?_ offset cs s hs
    s' h
  · intro offset bs s _ hs s' h
    cases h
    exact hs
  · intro offset bs c cs s e _ _ _ _ s' h
    cases h
  · intro offset bs c cs s n t r _ _ ht ih hs
    exact ih (hstep _ _ _ _ _ _ hs ht)

end ImplicitPlot.Expression.Scan

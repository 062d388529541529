import ImplicitPlot.Proofs.Expression.Arguments
import ImplicitPlot.Proofs.Expression.Parentheses
import ImplicitPlot.Proofs.Number.Numerals

/-
  The places of errors. The offset of an error is where a character of the text starts, or its
  end, and what the error says is true there (`SyntaxError.Locates`, `compile_error_locates`).

  A scan that has read a part of the text is at the offset where the part ends, so an error of a
  step shows at the step's first character (`step_error_locates`). An open group has the offset of
  a parenthesis that is not closed, and the last one of these is the innermost group
  (`unclosed_locates`).
-/
namespace ImplicitPlot.Expression

open Symbols

/-- A character starts at a byte offset of a text. -/
def ShowsAt (text : List Char) (offset : Nat) (c : Char) : Prop :=
  ∃ front rest, text = front ++ c :: rest ∧ offset = Text.byteLength front

/-- What an error says about a text. A parenthesis that is not closed is the last one, and the text
ends in a complete argument of its group. -/
def SyntaxError.Locates (V : Vocabulary) (text : List Char) : SyntaxError → Prop
  | unexpected offset found => ShowsAt text offset found ∧ Text.isBlank found = false
  | unopened offset =>
    ∃ front rest, text = front ++ ')' :: rest ∧ offset = Text.byteLength front ∧ Paired front
  | argumentCount offset expected found =>
    ShowsAt text offset ')' ∧ 1 ≤ found ∧ found ≠ expected
  | unclosed offset =>
    ∃ front rest, text = front ++ '(' :: rest ∧ offset = Text.byteLength front ∧ ¬Closes rest ∧
      (∀ before behind, rest = before ++ '(' :: behind → Closes behind) ∧
      ∃ argument, (rest = argument ∨ ∃ before, rest = before ++ ',' :: argument) ∧
        ∃ p, compile V argument = .ok p
  | unfinished offset => offset = Text.byteLength text
  | invalidNumber _ => False

theorem ShowsAt.exists_eq_append {text : List Char} {offset : Nat} {c : Char}
    (h : ShowsAt text offset c) :
    ∃ front rest, text = front ++ rest ∧ offset = Text.byteLength front := by
  obtain ⟨front, rest, htext, hoffset⟩ := h
  exact ⟨front, c :: rest, htext, hoffset⟩

theorem SyntaxError.Locates.exists_eq_append {V : Vocabulary} {text : List Char} {e : SyntaxError}
    (h : e.Locates V text) :
    ∃ front rest, text = front ++ rest ∧ e.offset = Text.byteLength front := by
  cases e with
  | unexpected offset found => exact h.1.exists_eq_append
  | unopened offset =>
    obtain ⟨front, rest, htext, hoffset, -⟩ := h
    exact ⟨front, _, htext, hoffset⟩
  | argumentCount offset expected found => exact h.1.exists_eq_append
  | unclosed offset =>
    obtain ⟨front, rest, htext, hoffset, -⟩ := h
    exact ⟨front, _, htext, hoffset⟩
  | unfinished offset => exact ⟨text, [], (List.append_nil text).symm, h⟩
  | invalidNumber offset => exact h.elim

/-! ## Numerals -/

theorem exists_readDecimal? {text : List Char} (h : IsNumeral text) :
    ∃ d, Number.readDecimal? text = some d := by
  cases h with
  | whole hne hds => exact ⟨_, Number.readDecimal?_digits hne hds⟩
  | pointed hne hds hes => exact ⟨_, Number.readDecimal?_fraction hne hds hes⟩

/-- A numeral always has a value. -/
theorem readFloat?_ne_none {text : List Char} (h : IsNumeral text) :
    Number.readFloat? text ≠ none := by
  obtain ⟨d, hd⟩ := exists_readDecimal? h
  have hmagnitude : Number.readMagnitude? text ≠ none := by
    unfold Number.readMagnitude?
    dsimp only
    split
    · exact Option.some_ne_none _
    split
    · exact Option.some_ne_none _
    rw [hd]
    exact Option.some_ne_none _
  unfold Number.readFloat?
  split
  · exact absurd h.head (by decide)
  · exact absurd h.head (by decide)
  · exact hmagnitude

/-! ## Errors of a step -/

namespace Scan

theorem operand_ne_error {V : Vocabulary} {word : List Char} {s : Scan} {first last : Nat}
    {token : OperandToken} {e : SyntaxError} (hwrites : token.Writes V word) :
    s.operand first last token ≠ .error e := by
  intro h
  cases hwrites with
  | number hnumeral =>
    rw [operand] at h
    split at h
    · cases h
    · rename_i hnone
      exact readFloat?_ne_none hnumeral hnone
  | _ => cases h

/-- Only a comma or a closing parenthesis can fail behind an operand. -/
theorem operator_error {s : Scan} {offset : Nat} {token : OperatorToken} {e : SyntaxError}
    (h : s.operator offset token = .error e) :
    token = .comma ∧ e = .unexpected offset ',' ∨
    token = .closeGroup ∧ (groupOffsets s.pending = [] ∧ e = .unopened offset ∨
      ∃ expected commas, commas + 1 ≠ expected ∧
        e = .argumentCount offset expected (commas + 1)) := by
  cases token with
  | suffixed op => cases h
  | infixed op => cases h
  | comma =>
    rw [operator] at h
    split at h
    · cases h
    · cases h
      exact Or.inl ⟨rfl, rfl⟩
  | closeGroup =>
    obtain ⟨ops, ⟨hpending, hflush⟩ | ⟨o, commas, callee, rest, hpending, hflush⟩⟩ :=
      flush_cases s.pending s.out <;> rw [operator, hflush] at h
    · cases h
      exact Or.inr ⟨rfl, Or.inl ⟨by rw [hpending, groupOffsets_waiting]; rfl, rfl⟩⟩
    · dsimp only at h
      split at h
      · cases h
      · rename_i hcount
        cases h
        exact Or.inr ⟨rfl, Or.inr ⟨_, commas, hcount, rfl⟩⟩

/-- The characters of a closing parenthesis and a comma. -/
theorem operatorToken?_head {V : Vocabulary} {c d : Char} {cs : List Char} {token : OperatorToken}
    {n : Nat} (h : operatorToken? V (c :: cs) = some (token, n))
    (hword : ∀ word, token.Writes V word → word = [d]) : c = d := by
  have hpos := operatorToken?_pos h
  obtain ⟨k, rfl⟩ : ∃ k, n = k + 1 := ⟨n - 1, by omega⟩
  have hwrites := hword _ (operatorToken?_writes h).2
  rw [List.take_succ_cons] at hwrites
  exact (List.cons.inj hwrites).1

theorem step_error_locates {V : Vocabulary} {c : Char} {cs read : List Char} {s : Scan}
    {e : SyntaxError} (hread : Opens read (groupOffsets s.pending))
    (hc : Text.isBlank c = false) (h : s.step V (Text.byteLength read) c cs = .error e) :
    e.Locates V (read ++ c :: cs) := by
  have hshows : ShowsAt (read ++ c :: cs) (Text.byteLength read) c := ⟨read, cs, rfl, rfl⟩
  rcases step_error_cases h with rfl | ⟨token, n, last, htoken, herror⟩ | ⟨token, n, htoken, herror⟩
  · exact ⟨hshows, hc⟩
  · exact absurd herror (operand_ne_error (operandToken?_writes htoken).2)
  · rcases operator_error herror with ⟨rfl, rfl⟩ | ⟨rfl, hclose⟩
    · obtain rfl : c = ',' := operatorToken?_head htoken (by rintro word ⟨⟩; rfl)
      exact ⟨hshows, hc⟩
    · obtain rfl : c = ')' := operatorToken?_head htoken (by rintro word ⟨⟩; rfl)
      rcases hclose with ⟨hnone, rfl⟩ | ⟨expected, commas, hcount, rfl⟩
      · rw [hnone] at hread
        exact ⟨read, cs, rfl, rfl, hread.of_nil⟩
      · exact ⟨hshows, Nat.le_add_left 1 commas, hcount⟩

/-- A run keeps the open groups at the open parentheses of what it has read, and its error says
what is true of the whole text. -/
theorem run_places {V : Vocabulary} (hV : V.Spelled) {cs read : List Char} {s : Scan}
    (hread : Opens read (groupOffsets s.pending)) :
    (∀ s', s.run V (Text.byteLength read) cs = .ok s' →
      Opens (read ++ cs) (groupOffsets s'.pending)) ∧
    ∀ e, s.run V (Text.byteLength read) cs = .error e → e.Locates V (read ++ cs) := by
  -- The invariant is about all that was read before, so it is stated for any such text.
  refine run_induction (P := fun offset cs s r => ∀ read, offset = Text.byteLength read →
    Opens read (groupOffsets s.pending) →
      (∀ s', r = .ok s' → Opens (read ++ cs) (groupOffsets s'.pending)) ∧
      ∀ e, r = .error e → e.Locates V (read ++ cs)) ?_ ?_ ?_ _ cs s read rfl hread
  · intro offset bs s hbs read _ hread
    refine ⟨fun s' h => ?_, fun e h => (nomatch h)⟩
    cases h
    exact hread.append (paired_of_blank hbs)
  · intro offset bs c cs s e hbs hc hstep read hoffset hread
    refine ⟨fun s' h => (nomatch h), fun e' h => ?_⟩
    cases h
    rw [hoffset, ← Text.byteLength_append] at hstep
    rw [← List.append_assoc]
    exact step_error_locates (hread.append (paired_of_blank hbs)) hc hstep
  · intro offset bs c cs s n s' r hbs hc hstep ih read hoffset hread
    rw [hoffset, ← Text.byteLength_append] at hstep
    have hopens := step_opens hV (hread.append (paired_of_blank hbs)) hstep
    have hnext := ih (read ++ bs ++ (c :: cs).take n)
      (by rw [hoffset, Text.byteLength_append, Text.byteLength_append]) hopens
    rw [List.append_assoc _ _ (List.drop _ _), List.take_append_drop, List.append_assoc] at hnext
    exact hnext

theorem run_start_places {V : Vocabulary} (hV : V.Spelled) (text : List Char) :
    (∀ s, start.run V 0 text = .ok s → Opens text (groupOffsets s.pending)) ∧
    ∀ e, start.run V 0 text = .error e → e.Locates V text := by
  have hread : Opens [] (groupOffsets start.pending) := .paired paired_nil
  exact run_places hV hread

end Scan

/-! ## Errors of a text -/

open Scan

/-- The parentheses of an expression belong together. -/
theorem paired_of_compile {V : Vocabulary} (hV : V.Spelled) {text : List Char} {p : Program}
    (h : compile V text = .ok p) : Paired text := by
  obtain ⟨ops, out, hrun, -⟩ := compile_eq_ok_iff.mp h
  have hopens := (run_start_places hV text).1 _ hrun
  rw [groupOffsets_waiting] at hopens
  exact hopens.of_nil

/-- A group that is still open at the end. -/
theorem unclosed_locates {V : Vocabulary} (hV : V.Spelled) {text : List Char} {o commas : Nat}
    {callee : Option Operator} {ops : List Operator} {base : List Pending}
    {out : List Instruction}
    (h : start.run V 0 text = .ok ⟨out, waiting ops (.group o commas callee :: base), false⟩) :
    (SyntaxError.unclosed o).Locates V text := by
  have hopens := (run_start_places hV text).1 _ h
  rw [groupOffsets_waiting] at hopens
  obtain ⟨before, d, argument, htext, hd, p, hp⟩ := exists_argument h
  generalize hoffsets : groupOffsets (.group o commas callee :: base) = offsets at hopens
  cases hopens with
  | paired => cases hoffsets
  | opened hfront hrest =>
    cases hoffsets
    exact ⟨_, _, rfl, rfl, hrest.not_closes, fun as bs hsplit => hrest.closes hsplit, argument,
      hrest.eq_or_behind_comma (paired_of_compile hV hp) hd htext, p, hp⟩

theorem locates_of_compile_error {V : Vocabulary} (hV : V.Spelled) {text : List Char}
    {e : SyntaxError} (h : compile V text = .error e) : e.Locates V text := by
  unfold compile at h
  rcases hrun : start.run V 0 text with e' | ⟨out, pending, needs⟩
  · rw [hrun] at h
    cases h
    exact (run_start_places hV text).2 _ hrun
  · rw [hrun] at h
    simp only [bind, Except.bind, finish] at h
    cases needs with
    | true =>
      cases h
      exact rfl
    | false =>
      rw [if_neg Bool.false_ne_true] at h
      rcases hdrain : drain pending out with e' | code
      · rw [hdrain] at h
        cases h
        obtain ⟨ops, o, commas, callee, base, rfl, rfl⟩ := exists_drain_error hdrain
        exact unclosed_locates hV hrun
      · rw [hdrain] at h
        cases h

/-- An error of a text shows where a character of it starts or at its end, and says what is true
there. -/
theorem compile_error_locates {V : Vocabulary} (hV : V.Reachable) {text : List Char}
    {e : SyntaxError} (h : compile V text = .error e) :
    e.offset ≤ Text.byteLength text ∧
      (∃ front rest, text = front ++ rest ∧ e.offset = Text.byteLength front) ∧
      e.Locates V text := by
  have hlocates := locates_of_compile_error hV.spelled h
  obtain ⟨front, rest, htext, hoffset⟩ := hlocates.exists_eq_append
  refine ⟨?_, ⟨front, rest, htext, hoffset⟩, hlocates⟩
  rw [hoffset, htext, Text.byteLength_append]
  exact Nat.le_add_right _ _

/-- A parenthesis behind a no-break space, which takes two bytes. -/
theorem compile_error_locates_unclosed :
    ∃ V : Vocabulary, V.Reachable ∧
      compile V ['\u00a0', '(', 'x'] = .error (.unclosed 2) ∧
      2 ≤ Text.byteLength ['\u00a0', '(', 'x'] ∧
      (∃ front rest, ['\u00a0', '(', 'x'] = front ++ rest ∧ 2 = Text.byteLength front) ∧
      (SyntaxError.unclosed 2).Locates V ['\u00a0', '(', 'x'] := by
  let x : Variable := ⟨"x", .free, 0⟩
  let V : Vocabulary := { Vocabulary.empty with vars := ⟨.node 'x' (some x) .nil .nil, 1⟩ }
  have hx : Vocabulary.empty.addVariable .empty "x" .free 0.0 =
      .ok (x, V, Store.empty.push 0.0) := rfl
  have hV : V.Reachable := Vocabulary.Reachable.empty.addVariable hx
  have hbs : ∀ b ∈ ['\u00a0'], Text.isBlank b = true :=
    List.forall_mem_singleton.mpr rfl
  have hblank : start.run V 0 ['\u00a0', '(', 'x'] = start.run V 2 ['(', 'x'] :=
    run_blanks_append hbs 0 _ _
  have hopen : start.run V 2 ['(', 'x'] = run V 3 ['x'] ⟨[], [.group 2 0 none], true⟩ :=
    run_operand '(' [] ['x'] rfl rfl rfl rfl
  have hload : run V 3 ['x'] ⟨[], [.group 2 0 none], true⟩ =
      run V 4 [] ⟨[.load x], [.group 2 0 none], false⟩ := run_operand 'x' [] [] rfl rfl rfl rfl
  have herror : compile V ['\u00a0', '(', 'x'] = .error (.unclosed 2) := by
    unfold compile
    rw [hblank, hopen, hload, run_blank rfl]
    rfl
  exact ⟨V, hV, herror, compile_error_locates hV herror⟩

end ImplicitPlot.Expression

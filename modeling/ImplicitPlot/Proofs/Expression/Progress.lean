import ImplicitPlot.Proofs.Expression.Cursor

/-
  Progress of a scan by offset. A pass reads the token behind the white space at its offset. From
  a boundary it ends at a boundary behind its start (`pass_token`), so the passes stay within the
  text, and there are no more of them than the text has bytes. The loop of these passes is then
  the scan over characters (`loop_append`), and all that stops it is what is wrong with the text.
-/
namespace ImplicitPlot.Expression.Cursor

open Symbols

/-! ## One pass -/

/-- The offset behind the token of a character, and the scan after it. -/
def token (V : Vocabulary) (text : List Char) (offset : Nat) (c : Char) (s : Scan) :
    Except Stop (Nat × Scan) := do
  if s.needsOperand then
    match ← operandAt V text offset c with
    | some (token, next) => ((s.operand offset next token).mapError .refused).map (next, ·)
    | none => throw (.refused (.unexpected offset c))
  else
    match ← operatorAt V text offset c with
    | some (token, next) => ((s.operator offset token).mapError .refused).map (next, ·)
    | none => throw (.refused (.unexpected offset c))

/-- The offset behind the white space, and the character there. -/
def ahead (text : List Char) (offset : Nat) : Except Stop (Nat × Option Char) := do
  let here ← skipBlanks text offset
  let c? ← peek text here
  return (here, c?)

/-- One pass of the loop: the offset behind the next token and the scan after it, or nothing if
only white space is left. -/
def pass (V : Vocabulary) (text : List Char) (offset : Nat) (s : Scan) :
    Except Stop (Option (Nat × Scan)) := do
  match ← ahead text offset with
  | (_, none) => return none
  | (here, some c) => (token V text here c s).map some

/-- Pass after pass until only white space is left. At most `limit` passes may meet a token, also
one that cannot be read or stand there. -/
def loop (V : Vocabulary) (text : List Char) :
    (limit offset : Nat) → Scan → Except Stop Scan
  | 0, offset, s => do
    match ← ahead text offset with
    | (_, none) => return s
    | (_, some _) => throw .overlong
  | limit + 1, offset, s => do
    match ← pass V text offset s with
    | none => return s
    | some (next, s) => loop V text limit next s

/-- The offset behind a token stands for its number of characters, whatever the token does. -/
theorem map_mapError_map (x : Except SyntaxError Scan) (n : Nat) (reached : Nat → Nat) :
    (x.mapError Stop.refused).map (reached n, ·) =
      ((x.map (n, ·)).mapError Stop.refused).map fun (n, s) => (reached n, s) := by
  cases x <;> rfl

theorem token_append (V : Vocabulary) (front : List Char) (c : Char) (cs : List Char) (s : Scan) :
    token V (front ++ c :: cs) (Text.byteLength front) c s =
      ((s.step V (Text.byteLength front) c cs).mapError .refused).map fun (n, s') =>
        (Text.byteLength front + Text.byteLength ((c :: cs).take n), s') := by
  let reached (n : Nat) := Text.byteLength front + Text.byteLength ((c :: cs).take n)
  rw [token, Scan.step]
  split
  · rw [operandAt_append]
    rcases operandToken? V (c :: cs) with _ | ⟨t, n⟩
    · rfl
    · exact map_mapError_map (s.operand (Text.byteLength front) (reached n) t) n reached
  · rw [operatorAt_append]
    rcases operatorToken? V (c :: cs) with _ | ⟨t, n⟩
    · rfl
    · exact map_mapError_map (s.operator (Text.byteLength front) t) n reached

theorem ahead_append (front cs : List Char) :
    ahead (front ++ cs) (Text.byteLength front) =
      .ok (Text.byteLength front + Text.byteLength (cs.takeWhile Text.isBlank),
        (Text.dropBlanks cs).head?) := by
  have hpeek := peek_append (front ++ cs.takeWhile Text.isBlank) (Text.dropBlanks cs)
  rw [List.append_assoc, Text.takeWhile_append_dropBlanks, Text.byteLength_append] at hpeek
  rw [ahead, skipBlanks_append]
  show (peek _ _).bind _ = _
  rw [hpeek]
  rfl

theorem pass_blank {V : Vocabulary} {cs : List Char} (h : Text.dropBlanks cs = [])
    (front : List Char) (s : Scan) : pass V (front ++ cs) (Text.byteLength front) s = .ok none := by
  rw [pass, ahead_append, h]
  rfl

/-- A pass reads the token behind the white space, and ends behind it. -/
theorem pass_token {V : Vocabulary} {cs rest : List Char} {c : Char}
    (h : Text.dropBlanks cs = c :: rest) (front : List Char) (s : Scan) :
    pass V (front ++ cs) (Text.byteLength front) s =
      let before := front ++ cs.takeWhile Text.isBlank
      ((s.step V (Text.byteLength before) c rest).mapError .refused).map fun (n, s') =>
        some (Text.byteLength (before ++ (c :: rest).take n), s') := by
  have htoken := token_append V (front ++ cs.takeWhile Text.isBlank) c rest s
  rw [← h, List.append_assoc, Text.takeWhile_append_dropBlanks] at htoken
  rw [pass, ahead_append, h, ← Text.byteLength_append]
  show (token _ _ _ c s).map some = _
  rw [htoken]
  dsimp only
  cases s.step V (Text.byteLength (front ++ cs.takeWhile Text.isBlank)) c rest with
  | error e => rfl
  | ok found => simp only [Except.mapError, Except.map, Text.byteLength_append, h]

theorem byteLength_take_pos (c : Char) (cs : List Char) {n : Nat} (hn : 0 < n) :
    0 < Text.byteLength ((c :: cs).take n) := by
  obtain ⟨n, rfl⟩ := Nat.exists_eq_add_one_of_ne_zero hn.ne'
  rw [List.take_succ_cons, Text.byteLength_cons]
  exact Nat.add_pos_left c.utf8Size_pos _

/-- A text is what stands before the end of its next token and what follows. -/
theorem append_behind_token {cs rest : List Char} {c : Char} (h : Text.dropBlanks cs = c :: rest)
    (front : List Char) (n : Nat) :
    front ++ cs =
        front ++ cs.takeWhile Text.isBlank ++ (c :: rest).take n ++ (c :: rest).drop n ∧
      Text.byteLength cs = Text.byteLength (cs.takeWhile Text.isBlank) +
        Text.byteLength ((c :: rest).take n) + Text.byteLength ((c :: rest).drop n) := by
  have hcs := Text.takeWhile_append_dropBlanks cs
  rw [h, ← List.take_append_drop n (c :: rest)] at hcs
  constructor
  · rw [List.append_assoc, List.append_assoc, hcs]
  · conv_lhs => rw [← hcs]
    rw [Text.byteLength_append, Text.byteLength_append, Nat.add_assoc]

/-! ## All passes -/

/-- The loop over the rest of a text reads it as the scan over its characters does, if it may make
as many passes as the rest has bytes. -/
theorem loop_append (V : Vocabulary) (limit : Nat) (front cs : List Char) (s : Scan)
    (hlimit : Text.byteLength cs ≤ limit) :
    loop V (front ++ cs) limit (Text.byteLength front) s =
      (s.run V (Text.byteLength front) cs).mapError .refused := by
  induction limit generalizing front cs s with
  | zero =>
    -- a rest of no bytes has no characters
    cases cs with
    | nil =>
      rw [loop, ahead_append, Scan.run_blank Text.dropBlanks_nil]
      rfl
    | cons c cs =>
      have := c.utf8Size_pos
      rw [Text.byteLength_cons] at hlimit
      omega
  | succ limit ih =>
    rw [loop]
    rcases hcs : Text.dropBlanks cs with _ | ⟨c, rest⟩
    · rw [pass_blank hcs, Scan.run_blank hcs]
      rfl
    · rw [pass_token hcs, Scan.run_step hcs, ← Text.byteLength_append]
      dsimp only
      rcases hstep : s.step V (Text.byteLength (front ++ cs.takeWhile Text.isBlank)) c rest with
        e | ⟨n, s'⟩
      · rfl
      · obtain ⟨htext, hbytes⟩ := append_behind_token hcs front n
        -- a token takes a byte or more, so one pass less is enough for what follows it
        have hpos := byteLength_take_pos c rest (Scan.step_pos hstep)
        have hnext := ih (front ++ cs.takeWhile Text.isBlank ++ (c :: rest).take n)
          ((c :: rest).drop n) s' (by omega)
        rw [← htext] at hnext
        refine hnext.trans ?_
        rw [Text.byteLength_append]

/-- In any vocabulary and text, a pass that starts at a boundary ends the loop at the end of the
text, or refuses the text, or moves on to a boundary that is not past the end. The loop therefore
needs no more passes than the text has bytes: it reads the text as the scan over characters does,
and no slice is cut and no cursor moved where there is no boundary. -/
theorem pass_advances (V : Vocabulary) (text : List Char) :
    (∀ offset s, Text.IsBoundary text offset →
      (pass V text offset s = .ok none ∧ skipBlanks text offset = .ok (Text.byteLength text)) ∨
      (∃ e, pass V text offset s = .error (.refused e)) ∨
      ∃ next s', pass V text offset s = .ok (some (next, s')) ∧
        offset < next ∧ next ≤ Text.byteLength text ∧ Text.IsBoundary text next) ∧
    loop V text (Text.byteLength text) 0 .start = (Scan.start.run V 0 text).mapError .refused := by
  refine ⟨?_, loop_append V _ [] text .start (Nat.le_refl _)⟩
  rintro _ s ⟨front, cs, rfl, rfl⟩
  rcases hcs : Text.dropBlanks cs with _ | ⟨c, rest⟩
  · have hblanks := Text.takeWhile_append_dropBlanks cs
    rw [hcs, List.append_nil] at hblanks
    refine Or.inl ⟨pass_blank hcs front s, ?_⟩
    rw [skipBlanks_append, hblanks, Text.byteLength_append]
  · right
    rw [pass_token hcs]
    dsimp only
    rcases hstep : s.step V (Text.byteLength (front ++ cs.takeWhile Text.isBlank)) c rest with
      e | ⟨n, s'⟩
    · exact Or.inl ⟨e, rfl⟩
    · obtain ⟨htext, -⟩ := append_behind_token hcs front n
      have hpos := byteLength_take_pos c rest (Scan.step_pos hstep)
      have hnext : Text.IsBoundary (front ++ cs)
          (Text.byteLength (front ++ cs.takeWhile Text.isBlank ++ (c :: rest).take n)) :=
        ⟨_, _, htext, rfl⟩
      refine Or.inr ⟨_, s', rfl, ?_, hnext.le, hnext⟩
      dsimp only
      rw [Text.byteLength_append, Text.byteLength_append]
      omega

/-- A name of three bytes and the parenthesis behind it, in one pass. -/
theorem pass_advances_call :
    ∃ (V : Vocabulary) (s : Scan),
      Vocabulary.empty.addFunction "√" 1 (fun xs => xs.headD 0) = .ok V ∧
      Text.IsBoundary "(√(2))".toList 1 ∧
      pass V "(√(2))".toList 1 .start = .ok (some (5, s)) ∧
      1 < 5 ∧ 5 ≤ Text.byteLength "(√(2))".toList ∧ Text.IsBoundary "(√(2))".toList 5 := by
  let root : Operator := .called "√" 1 fun xs => xs.headD 0
  let V : Vocabulary := { Vocabulary.empty with functions := ⟨.node '√' (some root) .nil .nil, 1⟩ }
  have hstart : Text.IsBoundary "(√(2))".toList 1 := by decide
  have hpass : pass V "(√(2))".toList 1 .start =
      .ok (some (5, ⟨[], [.group 4 0 (some root)], true⟩)) :=
    pass_token (show Text.dropBlanks "√(2))".toList = '√' :: "(2))".toList from rfl) ['('] .start
  refine ⟨V, _, rfl, hstart, hpass, ?_⟩
  rcases (pass_advances V _).1 1 .start hstart with ⟨hend, -⟩ | ⟨e, he⟩ | ⟨next, s, hnext, hbounds⟩
  · cases hpass.symm.trans hend
  · cases hpass.symm.trans he
  · cases hpass.symm.trans hnext
    exact hbounds

end ImplicitPlot.Expression.Cursor

import ImplicitPlot.Proofs.Expression.Steps
import ImplicitPlot.Proofs.Expression.Written
import ImplicitPlot.Proofs.Symbols.Offsets
import ImplicitPlot.Proofs.Text.Encoded

/-
  Scans by byte offset. A cursor is an offset into the whole text, and it can go wrong in ways that
  a scan over lists of characters cannot: it can cut the text inside a character or past its end, be
  moved there or back, or never come to the end. Here each of these stops it (`Cursor.Stop`), and
  the loop may only read as many tokens as it is allowed to.

  What the operations do on a boundary is said by the characters behind it (`Cursor.peek_append`,
  `Cursor.seek_take`, `Cursor.number_append` and so on).
-/
namespace ImplicitPlot

namespace Text

theorem isSome_dropBytes?_iff {text : List Char} {offset : Nat} :
    (dropBytes? offset text).isSome = true ↔ IsBoundary text offset := by
  rw [Option.isSome_iff_exists, IsBoundary, exists_comm]
  simp only [dropBytes?_eq_some_iff]

instance (text : List Char) (offset : Nat) : Decidable (IsBoundary text offset) :=
  decidable_of_iff _ isSome_dropBytes?_iff

theorem isBoundary_append (front rest : List Char) :
    IsBoundary (front ++ rest) (byteLength front) :=
  ⟨front, rest, rfl, rfl⟩

theorem IsBoundary.le {text : List Char} {offset : Nat} (h : IsBoundary text offset) :
    offset ≤ byteLength text := by
  obtain ⟨front, rest, rfl, rfl⟩ := h
  rw [byteLength_append]
  exact Nat.le_add_right _ _

end Text

namespace Expression

open Symbols

namespace Cursor

/-! ## Moves of a cursor -/

/-- Why a cursor stops before the end of a text. -/
inductive Stop where
  /-- The text is no expression. -/
  | refused (e : SyntaxError)
  /-- The text is cut at an offset that is no boundary. -/
  | cut (offset : Nat)
  /-- The cursor is moved back, or to an offset that is no boundary. -/
  | moved (offset target : Nat)
  /-- There are more tokens than may be read. -/
  | overlong
  deriving DecidableEq, Repr

/-- What stands behind an offset. -/
def rest (text : List Char) (offset : Nat) : Except Stop (List Char) :=
  match Text.dropBytes? offset text with
  | some cs => .ok cs
  | none => .error (.cut offset)

/-- What stands between two offsets. -/
def slice (text : List Char) (first last : Nat) : Except Stop (List Char) := do
  let cs ← rest text first
  let behind ← rest text last
  if first ≤ last then return cs.take (cs.length - behind.length) else throw (.cut last)

/-- The character behind an offset, unless that is the end. -/
def peek (text : List Char) (offset : Nat) : Except Stop (Option Char) :=
  (rest text offset).map List.head?

/-- Whether a character stands right behind an offset. -/
def isAt (text : List Char) (offset : Nat) (c : Char) : Except Stop Bool :=
  (peek text offset).map (· == some c)

/-- Move to another offset. -/
def seek (text : List Char) (offset target : Nat) : Except Stop Nat :=
  if offset ≤ target ∧ Text.IsBoundary text target then .ok target
  else .error (.moved offset target)

/-- Move behind the next character. -/
def bump (text : List Char) (offset : Nat) : Except Stop Nat :=
  (peek text offset).map fun c? => (c?.map fun c => offset + c.utf8Size).getD offset

theorem rest_append (front cs : List Char) :
    rest (front ++ cs) (Text.byteLength front) = .ok cs := by
  rw [rest, Text.dropBytes?_append]

/-- A text can be cut at its boundaries, and nowhere else. -/
theorem rest_eq_ok_iff {text cs : List Char} {offset : Nat} :
    rest text offset = .ok cs ↔ ∃ front, text = front ++ cs ∧ Text.byteLength front = offset := by
  rw [← Text.dropBytes?_eq_some_iff, rest]
  cases Text.dropBytes? offset text with
  | none => exact ⟨nofun, nofun⟩
  | some cs' => rw [Except.ok.injEq, Option.some_inj]

theorem peek_append (front cs : List Char) :
    peek (front ++ cs) (Text.byteLength front) = .ok cs.head? := by
  rw [peek, rest_append]
  rfl

theorem exists_of_peek {text : List Char} {offset : Nat} {c : Char}
    (h : peek text offset = .ok (some c)) :
    ∃ front cs, text = front ++ c :: cs ∧ Text.byteLength front = offset := by
  unfold peek at h
  cases hrest : rest text offset with
  | error stop =>
    rw [hrest] at h
    cases h
  | ok cs =>
    rw [hrest] at h
    obtain ⟨cs, rfl⟩ := List.head?_eq_some_iff.mp (Except.ok.inj h)
    obtain ⟨front, htext, hfront⟩ := rest_eq_ok_iff.mp hrest
    exact ⟨front, cs, htext, hfront⟩

theorem append_take_drop (front cs : List Char) (n : Nat) :
    front ++ cs = front ++ cs.take n ++ cs.drop n := by
  rw [List.append_assoc, List.take_append_drop]

theorem isAt_take (front cs : List Char) (n : Nat) (c : Char) :
    isAt (front ++ cs) (Text.byteLength front + Text.byteLength (cs.take n)) c =
      .ok (cs[n]? == some c) := by
  rw [← Text.byteLength_append, append_take_drop front cs n, isAt, peek_append, List.head?_drop]
  rfl

theorem isBoundary_take (front cs : List Char) (n : Nat) :
    Text.IsBoundary (front ++ cs) (Text.byteLength front + Text.byteLength (cs.take n)) := by
  rw [← Text.byteLength_append, append_take_drop front cs n]
  exact Text.isBoundary_append _ _

theorem seek_take (front cs : List Char) (n : Nat) :
    seek (front ++ cs) (Text.byteLength front)
      (Text.byteLength front + Text.byteLength (cs.take n)) =
      .ok (Text.byteLength front + Text.byteLength (cs.take n)) :=
  if_pos ⟨Nat.le_add_right _ _, isBoundary_take front cs n⟩

theorem slice_take (front cs : List Char) (n : Nat) :
    slice (front ++ cs) (Text.byteLength front)
      (Text.byteLength front + Text.byteLength (cs.take n)) = .ok (cs.take n) := by
  have hbehind : rest (front ++ cs) (Text.byteLength front + Text.byteLength (cs.take n)) =
      .ok (cs.drop n) := by
    rw [← Text.byteLength_append, append_take_drop front cs n, rest_append]
  -- a slice may reach past the end of the rest
  have hlength : cs.length - (cs.drop n).length = min n cs.length := by
    rw [List.length_drop]
    omega
  rw [slice, rest_append, hbehind]
  show (if _ then _ else _) = _
  rw [if_pos (Nat.le_add_right _ _), hlength, ← List.take_eq_take_min]
  rfl

theorem bump_cons (front : List Char) (c : Char) (cs : List Char) :
    bump (front ++ c :: cs) (Text.byteLength front) = .ok (Text.byteLength front + c.utf8Size) := by
  rw [bump, peek_append]
  rfl

/-! ## White space -/

/-- Move behind the white space from an offset on. -/
def skipBlanks (text : List Char) (offset : Nat) : Except Stop Nat :=
  match h : peek text offset with
  | .ok (some c) =>
    if Text.isBlank c then
      have : Text.byteLength text - (offset + c.utf8Size) < Text.byteLength text - offset := by
        obtain ⟨front, cs, rfl, rfl⟩ := exists_of_peek h
        have := c.utf8Size_pos
        rw [Text.byteLength_append, Text.byteLength_cons]
        omega
      skipBlanks text (offset + c.utf8Size)
    else .ok offset
  | .ok none => .ok offset
  | .error stop => .error stop
termination_by Text.byteLength text - offset

theorem skipBlanks_of_peek {text : List Char} {offset : Nat} {c? : Option Char}
    (h : peek text offset = .ok c?) :
    skipBlanks text offset =
      if c?.any Text.isBlank then skipBlanks text (offset + (c?.map Char.utf8Size).getD 0)
      else .ok offset := by
  rw [skipBlanks]
  split <;> rename_i h' <;> rw [h] at h' <;> cases h' <;> rfl

theorem skipBlanks_append (front cs : List Char) :
    skipBlanks (front ++ cs) (Text.byteLength front) =
      .ok (Text.byteLength front + Text.byteLength (cs.takeWhile Text.isBlank)) := by
  induction cs generalizing front with
  | nil => exact skipBlanks_of_peek (peek_append front [])
  | cons c cs ih =>
    have hnext := ih (front ++ [c])
    rw [List.append_assoc, List.singleton_append, Text.byteLength_append] at hnext
    rw [skipBlanks_of_peek (peek_append front (c :: cs)), List.takeWhile_cons]
    show (if Text.isBlank c then _ else _) = _
    split
    · refine hnext.trans ?_
      rw [Text.byteLength_cons, Nat.add_assoc]
      rfl
    · rfl

/-! ## Numerals -/

/-- The offset of the first byte from an offset on that is no digit. -/
def digitsEnd (bytes : List UInt8) (start : Nat) : Nat :=
  start + ((bytes.drop start).takeWhile Text.isDigitByte).length

/-- The offset behind the digits from an offset on and, if a point follows, the digits behind it. -/
def numeralEnd (bytes : List UInt8) (start : Nat) : Nat :=
  let stop := digitsEnd bytes start
  if bytes[stop]? = some Text.pointByte then digitsEnd bytes (stop + 1) else stop

/-- The numeral from an offset on, read byte by byte, and the offset behind it. -/
def number (text : List Char) (offset : Nat) : Except Stop (List Char × Nat) :=
  let stop := numeralEnd (Text.utf8 text) offset
  (slice text offset stop).map (·, stop)

/-- Digits read byte by byte are the digits among the characters. -/
theorem digitsEnd_utf8 (front rest : List Char) :
    digitsEnd (Text.utf8 (front ++ rest)) (Text.byteLength front) =
      Text.byteLength front + Text.byteLength (rest.takeWhile Char.isDigit) := by
  rw [digitsEnd, Text.drop_utf8, Text.takeWhile_utf8, Text.length_utf8]

/-- A numeral read byte by byte is the numeral of the characters. -/
theorem numeralEnd_utf8 (front rest : List Char) :
    numeralEnd (Text.utf8 (front ++ rest)) (Text.byteLength front) =
      Text.byteLength front + Text.byteLength (numeral rest) := by
  obtain ⟨whole, hwhole⟩ : ∃ whole, rest.takeWhile Char.isDigit = whole := ⟨_, rfl⟩
  have hsplit : whole ++ rest.drop whole.length = rest := by
    rw [← hwhole]
    exact List.prefix_iff_eq_append.mp (List.takeWhile_prefix Char.isDigit)
  have hstop : digitsEnd (Text.utf8 (front ++ rest)) (Text.byteLength front) =
      Text.byteLength (front ++ whole) := by
    rw [digitsEnd_utf8, hwhole, Text.byteLength_append]
  have hpoint := Text.getElem?_utf8 (front ++ whole) (rest.drop whole.length)
  rw [List.append_assoc, hsplit] at hpoint
  unfold numeralEnd numeral
  simp only [hstop, hpoint, hwhole]
  -- behind the digits stands nothing, a point, or the first byte of another character
  rcases hbehind : rest.drop whole.length with _ | ⟨d, behind⟩
  · rw [if_neg nofun, Text.byteLength_append]
  · by_cases hd : d = '.'
    · subst hd
      have hnext : Text.byteLength (front ++ whole ++ ['.']) =
          Text.byteLength (front ++ whole) + 1 := by
        rw [Text.byteLength_append]
        rfl
      have htext : front ++ rest = front ++ whole ++ ['.'] ++ behind := by
        rw [← hsplit, hbehind, List.append_assoc, List.append_assoc, List.singleton_append]
      rw [if_pos (List.head?_cons ..), ← hnext, htext, digitsEnd_utf8]
      simp only [Text.byteLength_append, Text.byteLength_cons, Text.byteLength_nil]
      omega
    · rw [if_neg (by simpa using hd)]
      split
      · rename_i heq
        exact absurd (List.cons.inj heq).1 hd
      · rw [Text.byteLength_append]

theorem number_append (front cs : List Char) :
    number (front ++ cs) (Text.byteLength front) =
      .ok (numeral cs, Text.byteLength front + Text.byteLength (numeral cs)) := by
  have hnumeral : numeral cs = cs.take (numeral cs).length :=
    List.prefix_iff_eq_take.mp <| numeral_prefix cs
  have hslice := slice_take front cs (numeral cs).length
  rw [← hnumeral] at hslice
  rw [number, numeralEnd_utf8, hslice]
  rfl

/-! ## Tokens -/

/-- A token for the longest name of a table at an offset, and the offset behind it. -/
def named {α β : Type} (t : Trie α) (token : α → β) (text : List Char) (offset : Nat) :
    Except Stop (Option (β × Nat)) :=
  match t.longestAt? text offset with
  | some (stop, v) => (seek text offset stop).map fun next => some (token v, next)
  | none => .ok none

/-- The function called at an offset, and the offset behind its open parenthesis. -/
def callAt (V : Vocabulary) (text : List Char) (offset : Nat) :
    Except Stop (Option (OperandToken × Nat)) :=
  match V.functions.longestAt? text offset with
  | some (stop, f) => do
    if ← isAt text stop '(' then
      let next ← seek text offset (stop + 1)
      return some (.call f, next)
    else return none
  | none => .ok none

/-- The first of two that finds something. -/
def orElse {α : Type} (found other : Except Stop (Option α)) : Except Stop (Option α) :=
  found.bind fun
    | some token => .ok (some token)
    | none => other

/-- The token of a character at an offset where an operand is needed, and the offset behind it. -/
def operandAt (V : Vocabulary) (text : List Char) (offset : Nat) (c : Char) :
    Except Stop (Option (OperandToken × Nat)) :=
  if c = '(' then (bump text offset).map fun next => some (.openGroup, next)
  else if c.isDigit then
    (number text offset).map fun (digits, next) => some (.number digits, next)
  else
    orElse (named V.prefixes .prefixed text offset) <|
    orElse (callAt V text offset) <|
    named V.vars .variable text offset

/-- The token of a character at an offset behind an operand, and the offset behind it. -/
def operatorAt (V : Vocabulary) (text : List Char) (offset : Nat) (c : Char) :
    Except Stop (Option (OperatorToken × Nat)) :=
  if c = ')' then (bump text offset).map fun next => some (.closeGroup, next)
  else if c = ',' then (bump text offset).map fun next => some (.comma, next)
  else
    orElse (named V.infixes .infixed text offset) <|
    named V.suffixes .suffixed text offset

/-- What is found in the rest of a text, with the offset of its end for its number of characters. -/
def placed {α : Type} (front cs : List Char) (found : Option (α × Nat)) : Option (α × Nat) :=
  found.map fun (token, n) => (token, Text.byteLength front + Text.byteLength (cs.take n))

theorem orElse_placed {α : Type} (front cs : List Char) (found other : Option (α × Nat)) :
    orElse (.ok (placed front cs found)) (.ok (placed front cs other)) =
      .ok (placed front cs (found <|> other)) := by
  cases found <;> rfl

theorem named_append {α β : Type} (t : Trie α) (token : α → β) (front cs : List Char) :
    named t token (front ++ cs) (Text.byteLength front) =
      .ok (placed front cs ((t.longest? cs).map fun (n, v) => (token v, n))) := by
  rw [named, Trie.longestAt?_eq]
  rcases t.longest? cs with _ | ⟨n, v⟩
  · rfl
  · simp only [Option.map_some, seek_take]
    rfl

/-- An open parenthesis takes one byte, so the offset behind it is a boundary. -/
theorem callAt_append (V : Vocabulary) (front cs : List Char) :
    callAt V (front ++ cs) (Text.byteLength front) = .ok (placed front cs (call? V cs)) := by
  rw [callAt, Trie.longestAt?_eq, call?]
  rcases V.functions.longest? cs with _ | ⟨n, f⟩
  · rfl
  · simp only [Option.map_some, isAt_take]
    show (if (cs[n]? == some '(') = true then _ else _) = _
    by_cases hparen : cs[n]? = some '('
    · have hnext : Text.byteLength front + Text.byteLength (cs.take n) + 1 =
          Text.byteLength front + Text.byteLength (cs.take (n + 1)) := by
        rw [List.take_add_one, hparen, Text.byteLength_append, Nat.add_assoc]
        rfl
      rw [if_pos (beq_iff_eq.mpr hparen), if_pos hparen, hnext, seek_take]
      rfl
    · rw [if_neg (mt beq_iff_eq.mp hparen), if_neg hparen]
      rfl

theorem bump_placed {α : Type} (front : List Char) (c : Char) (cs : List Char) (token : α) :
    (bump (front ++ c :: cs) (Text.byteLength front)).map (fun next => some (token, next)) =
      .ok (placed front (c :: cs) (some (token, 1))) := by
  rw [bump_cons]
  rfl

theorem operandAt_append (V : Vocabulary) (front : List Char) (c : Char) (cs : List Char) :
    operandAt V (front ++ c :: cs) (Text.byteLength front) c =
      .ok (placed front (c :: cs) (operandToken? V (c :: cs))) := by
  rw [operandAt, operandToken?]
  split
  · exact bump_placed front c cs _
  · split
    · have hfront := numeral_prefix (c :: cs)
      rw [number_append]
      show _ = Except.ok (some (_, _ + Text.byteLength ((c :: cs).take (numeral (c :: cs)).length)))
      rw [← List.prefix_iff_eq_take.mp hfront]
      rfl
    · rw [named_append, callAt_append, named_append, orElse_placed, orElse_placed]

theorem operatorAt_append (V : Vocabulary) (front : List Char) (c : Char) (cs : List Char) :
    operatorAt V (front ++ c :: cs) (Text.byteLength front) c =
      .ok (placed front (c :: cs) (operatorToken? V (c :: cs))) := by
  rw [operatorAt, operatorToken?]
  split
  · exact bump_placed front c cs _
  · split
    · exact bump_placed front c cs _
    · rw [named_append, named_append, orElse_placed]

end Cursor

end Expression

end ImplicitPlot

import ImplicitPlot.Symbols.Vocabulary

/-
  Tokens. Which token stands at a place depends on what the expression needs there: an operand
  or an operator. At either place the kinds of token are tried in a fixed order, each by the
  longest name that the text goes on with, and the first kind that has one wins. A function
  counts only if an open parenthesis follows at once.

  A token is found together with its number of characters, which is never zero
  (`operandToken?_pos`, `operatorToken?_pos`).
-/
namespace ImplicitPlot.Expression

open Symbols

/-- What can stand where an operand is needed. -/
inductive OperandToken where
  | openGroup
  /-- A numeral, not read yet. -/
  | number (text : List Char)
  | prefixed (op : Operator)
  /-- A function name with its open parenthesis. -/
  | call (f : Operator)
  | variable (v : Variable)

/-- What can stand after an operand. -/
inductive OperatorToken where
  | closeGroup
  | comma
  | infixed (op : Operator)
  | suffixed (op : Operator)

/-- The digits at the front of a text, with a point and the digits behind it if there is one. -/
def numeral (cs : List Char) : List Char :=
  let whole := cs.takeWhile Char.isDigit
  match cs.drop whole.length with
  | '.' :: rest => whole ++ '.' :: rest.takeWhile Char.isDigit
  | _ => whole

/-- The function whose name, followed by an open parenthesis, starts a text. -/
def call? (V : Vocabulary) (cs : List Char) : Option (OperandToken × Nat) :=
  match V.functions.longest? cs with
  | some (n, f) => if cs[n]? = some '(' then some (.call f, n + 1) else none
  | none => none

/-- The token that starts a text where an operand is needed. -/
def operandToken? (V : Vocabulary) : List Char → Option (OperandToken × Nat)
  | [] => none
  | c :: cs =>
    if c = '(' then some (.openGroup, 1)
    else if c.isDigit then
      let text := numeral (c :: cs)
      some (.number text, text.length)
    else
      (V.prefixes.longest? (c :: cs)).map (fun (n, op) => (.prefixed op, n)) <|>
      call? V (c :: cs) <|>
      (V.vars.longest? (c :: cs)).map (fun (n, v) => (.variable v, n))

/-- The token that starts a text after an operand. -/
def operatorToken? (V : Vocabulary) : List Char → Option (OperatorToken × Nat)
  | [] => none
  | c :: cs =>
    if c = ')' then some (.closeGroup, 1)
    else if c = ',' then some (.comma, 1)
    else
      (V.infixes.longest? (c :: cs)).map (fun (n, op) => (.infixed op, n)) <|>
      (V.suffixes.longest? (c :: cs)).map (fun (n, op) => (.suffixed op, n))

/-! ## Tokens are not empty -/

theorem numeral_length_pos {c : Char} (cs : List Char) (h : c.isDigit = true) :
    0 < (numeral (c :: cs)).length := by
  unfold numeral
  simp only [List.takeWhile_cons, h, if_true, List.length_cons]
  split <;> simp

theorem operandToken?_pos {V : Vocabulary} {cs : List Char} {t : OperandToken} {n : Nat}
    (h : operandToken? V cs = some (t, n)) : 0 < n := by
  cases cs with
  | nil => simp [operandToken?] at h
  | cons c cs =>
    rw [operandToken?] at h
    split at h
    · cases h; decide
    · split at h
      · rename_i hdigit
        have := numeral_length_pos cs hdigit
        cases h; exact this
      · rcases hp : V.prefixes.longest? (c :: cs) with _ | ⟨k, op⟩
        · rcases hc : call? V (c :: cs) with _ | ⟨u, k⟩
          · rcases hv : V.vars.longest? (c :: cs) with _ | ⟨k, v⟩
            · simp [hp, hc, hv] at h
            · simp [hp, hc, hv] at h
              exact h.2 ▸ Trie.longest?_pos hv
          · simp [hp, hc] at h
            unfold call? at hc
            split at hc
            · split at hc
              · cases hc; omega
              · simp at hc
            · simp at hc
        · simp [hp] at h
          exact h.2 ▸ Trie.longest?_pos hp

theorem operatorToken?_pos {V : Vocabulary} {cs : List Char} {t : OperatorToken} {n : Nat}
    (h : operatorToken? V cs = some (t, n)) : 0 < n := by
  cases cs with
  | nil => simp [operatorToken?] at h
  | cons c cs =>
    rw [operatorToken?] at h
    split at h
    · cases h; decide
    · split at h
      · cases h; decide
      · rcases hi : V.infixes.longest? (c :: cs) with _ | ⟨k, op⟩
        · rcases hs : V.suffixes.longest? (c :: cs) with _ | ⟨k, op⟩
          · simp [hi, hs] at h
          · simp [hi, hs] at h
            exact h.2 ▸ Trie.longest?_pos hs
        · simp [hi] at h
          exact h.2 ▸ Trie.longest?_pos hi

end ImplicitPlot.Expression

import ImplicitPlot.Expression.Scan
import ImplicitPlot.Proofs.Symbols.LongestName

/-
  Expressions by precedence climbing. `expression? V m` reads an operand and then every infix
  operator of a priority of at least `m`, each with an expression of a higher priority to its
  right; a prefix operator takes such an expression as its operand; parentheses and calls start
  again at priority zero. What is read is a tree, and its instructions stand in postorder.

  The tables are only asked for the values of whole names. A reader returns the rest of the text
  with a bound on its length, which is why the recursion ends: the reader of one expression calls
  the next on a shorter text, or on the same text further down the order operand, expression,
  arguments.
-/
namespace ImplicitPlot.Expression

open Symbols

/-! ## Trees -/

/-- An expression. -/
inductive Tree where
  | literal (x : Float)
  | load (v : Variable)
  /-- An operator or function with its operands in the order of the text. -/
  | apply (op : Operator) (operands : List Tree)

namespace Tree

mutual

/-- The instructions of a tree, each operator behind its operands. -/
def postorder : Tree → List Instruction
  | literal x => [.literal x]
  | load v => [.load v]
  | apply op operands => postorderAll operands ++ [.apply op]

/-- The instructions of trees one after the other. -/
def postorderAll : List Tree → List Instruction
  | [] => []
  | t :: ts => postorder t ++ postorderAll ts

end

end Tree

/-! ## Tokens -/

/-- What is left of a text after some of its characters. -/
abbrev Shorter (cs : List Char) := {rest : List Char // rest.length < cs.length}

/-- What is left of a text after any number of its characters, also none. -/
abbrev NoLonger (cs : List Char) := {rest : List Char // rest.length ≤ cs.length}

/-- The token of a kind at the longest name that a text starts with. -/
def named? {α β : Type} (token : α → β) (t : Trie α) (cs : List Char) : Option (β × Nat) :=
  (t.longestName? cs).map fun (n, v) => (token v, n)

/-- The function at the longest name that a text starts with, if a parenthesis opens there. -/
def called? (V : Vocabulary) (cs : List Char) : Option (OperandToken × Nat) :=
  (named? .call V.functions cs).bind fun (token, n) =>
    if cs[n]? = some '(' then some (token, n + 1) else none

/-- The token where an operand is needed, with its number of characters. -/
def readOperand? (V : Vocabulary) (cs : List Char) : Option (OperandToken × Nat) :=
  match cs.head? with
  | none => none
  | some c =>
    if c = '(' then some (.openGroup, 1)
    else if c.isDigit then some (.number (numeral cs), (numeral cs).length)
    else named? .prefixed V.prefixes cs <|> called? V cs <|> named? .variable V.vars cs

/-- The token behind an operand, with its number of characters. -/
def readOperator? (V : Vocabulary) (cs : List Char) : Option (OperatorToken × Nat) :=
  match cs.head? with
  | none => none
  | some c =>
    if c = ')' then some (.closeGroup, 1)
    else if c = ',' then some (.comma, 1)
    else named? .infixed V.infixes cs <|> named? .suffixed V.suffixes cs

theorem named?_eq {α β : Type} (token : α → β) (t : Trie α) (cs : List Char) :
    named? token t cs = (t.longest? cs).map fun (n, v) => (token v, n) := by
  rw [named?, Trie.longest?_eq_longestName?]

theorem called?_eq (V : Vocabulary) (cs : List Char) : called? V cs = call? V cs := by
  unfold called? call?
  rw [named?_eq]
  rcases V.functions.longest? cs with _ | ⟨n, f⟩ <;> rfl

theorem readOperand?_eq (V : Vocabulary) (cs : List Char) :
    readOperand? V cs = operandToken? V cs := by
  cases cs with
  | nil => rfl
  | cons c cs => simp only [readOperand?, operandToken?, List.head?_cons, named?_eq, called?_eq]

theorem readOperator?_eq (V : Vocabulary) (cs : List Char) :
    readOperator? V cs = operatorToken? V cs := by
  cases cs with
  | nil => rfl
  | cons c cs => simp only [readOperator?, operatorToken?, List.head?_cons, named?_eq]

theorem readOperand?_shorter {V : Vocabulary} {cs : List Char} {token : OperandToken} {n : Nat}
    (h : readOperand? V (Text.dropBlanks cs) = some (token, n)) :
    ((Text.dropBlanks cs).drop n).length < cs.length := by
  rcases hcs : Text.dropBlanks cs with _ | ⟨c, rest⟩ <;> rw [hcs, readOperand?_eq] at h
  · cases h
  · exact Scan.drop_length_lt hcs (operandToken?_pos h)

theorem readOperator?_shorter {V : Vocabulary} {cs : List Char} {token : OperatorToken} {n : Nat}
    (h : readOperator? V (Text.dropBlanks cs) = some (token, n)) :
    ((Text.dropBlanks cs).drop n).length < cs.length := by
  rcases hcs : Text.dropBlanks cs with _ | ⟨c, rest⟩ <;> rw [hcs, readOperator?_eq] at h
  · cases h
  · exact Scan.drop_length_lt hcs (operatorToken?_pos h)

/-- The next token where an operand is needed, and what is left behind it. -/
def operandAt? (V : Vocabulary) (cs : List Char) : Option (OperandToken × Shorter cs) :=
  match h : readOperand? V (Text.dropBlanks cs) with
  | some (token, n) => some (token, ⟨(Text.dropBlanks cs).drop n, readOperand?_shorter h⟩)
  | none => none

/-- The next token behind an operand, and what is left behind it. -/
def operatorAt? (V : Vocabulary) (cs : List Char) : Option (OperatorToken × Shorter cs) :=
  match h : readOperator? V (Text.dropBlanks cs) with
  | some (token, n) => some (token, ⟨(Text.dropBlanks cs).drop n, readOperator?_shorter h⟩)
  | none => none

/-! ## The parser -/

/-- What is left behind a closing parenthesis, if it comes next. -/
def closing? (V : Vocabulary) (cs : List Char) : Option (Shorter cs) :=
  match operatorAt? V cs with
  | some (.closeGroup, rest) => some rest
  | _ => none

/-- What is left behind a comma, if it comes next. -/
def comma? (V : Vocabulary) (cs : List Char) : Option (Shorter cs) :=
  match operatorAt? V cs with
  | some (.comma, rest) => some rest
  | _ => none

/-- An operand with all suffix operators that come next. -/
def suffixes (V : Vocabulary) (t : Tree) (cs : List Char) : Tree × NoLonger cs :=
  match operatorAt? V cs with
  | some (.suffixed op, rest) =>
    let (t, rest') := suffixes V (.apply op [t]) rest.1
    (t, ⟨rest'.1, Nat.le_trans rest'.2 (Nat.le_of_lt rest.2)⟩)
  | _ => (t, ⟨cs, Nat.le_refl _⟩)
termination_by cs.length
decreasing_by exact rest.2

mutual

/-- A number, variable, parenthesised expression or call with its suffix operators, or a prefix
operator with its operand. -/
def operand? (V : Vocabulary) (cs : List Char) : Option (Tree × Shorter cs) :=
  match operandAt? V cs with
  | none => none
  | some (.number text, rest) => do
    let x ← Number.readFloat? text
    let (t, rest') := suffixes V (.literal x) rest.1
    return (t, ⟨rest'.1, by omega⟩)
  | some (.variable v, rest) => do
    let (t, rest') := suffixes V (.load v) rest.1
    return (t, ⟨rest'.1, by omega⟩)
  | some (.openGroup, rest) => do
    let (t, inner) ← expression? V 0 rest.1
    let rest' ← closing? V inner.1
    let (t, rest'') := suffixes V t rest'.1
    return (t, ⟨rest''.1, by omega⟩)
  | some (.call f, rest) => do
    let (ts, rest') ← arguments? V f.arity rest.1
    let (t, rest'') := suffixes V (.apply f ts) rest'.1
    return (t, ⟨rest''.1, by omega⟩)
  | some (.prefixed op, rest) => do
    let (t, rest') ← expression? V (op.priority + 1) rest.1
    return (.apply op [t], ⟨rest'.1, by omega⟩)
termination_by (cs.length, 0)

/-- An expression whose infix operators have a priority of at least `m`. -/
def expression? (V : Vocabulary) (m : Nat) (cs : List Char) : Option (Tree × Shorter cs) := do
  let (t, rest) ← operand? V cs
  let (t, rest') ← climb? V m t rest.1
  return (t, ⟨rest'.1, by omega⟩)
termination_by (cs.length, 1)

/-- A left operand with the infix operators of a priority of at least `m` that come next. -/
def climb? (V : Vocabulary) (m : Nat) (left : Tree) (cs : List Char) :
    Option (Tree × NoLonger cs) :=
  match operatorAt? V cs with
  | some (.infixed op, rest) =>
    if m ≤ op.priority then do
      let (right, rest') ← expression? V (op.priority + 1) rest.1
      let (t, rest'') ← climb? V m (.apply op [left, right]) rest'.1
      return (t, ⟨rest''.1, by omega⟩)
    else some (left, ⟨cs, Nat.le_refl _⟩)
  | _ => some (left, ⟨cs, Nat.le_refl _⟩)
termination_by (cs.length, 0)

/-- As many arguments as a call takes, with commas between them and a closing parenthesis at the
end. -/
def arguments? (V : Vocabulary) (n : Nat) (cs : List Char) : Option (List Tree × Shorter cs) :=
  match n with
  | 0 => none
  | 1 => do
    let (t, rest) ← expression? V 0 cs
    let rest' ← closing? V rest.1
    return ([t], ⟨rest'.1, by omega⟩)
  | n + 2 => do
    let (t, rest) ← expression? V 0 cs
    let rest' ← comma? V rest.1
    let (ts, rest'') ← arguments? V (n + 1) rest'.1
    return (t :: ts, ⟨rest''.1, by omega⟩)
termination_by (cs.length, 2)

end

/-- The tree of a text that is one expression from end to end. -/
def parse? (V : Vocabulary) (text : List Char) : Option Tree := do
  let (t, rest) ← expression? V 0 text
  if Text.dropBlanks rest.1 = [] then some t else none

end ImplicitPlot.Expression

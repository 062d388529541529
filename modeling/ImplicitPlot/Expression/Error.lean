import ImplicitPlot.Number.Digits

/-
  What can be wrong with the text of an expression, each with the byte offset where it shows.
-/
namespace ImplicitPlot.Expression

/-- Why a text is no expression. -/
inductive SyntaxError where
  /-- A character that fits nothing at this place. -/
  | unexpected (offset : Nat) (found : Char)
  /-- A parenthesis that is never closed. -/
  | unclosed (offset : Nat)
  /-- A closing parenthesis without an open one. -/
  | unopened (offset : Nat)
  /-- The text ends where an operand is needed. -/
  | unfinished (offset : Nat)
  /-- A group or call closes with another number of arguments than it takes. -/
  | argumentCount (offset expected found : Nat)
  /-- A numeral without a value. -/
  | invalidNumber (offset : Nat)
  deriving DecidableEq, Repr

namespace SyntaxError

/-- The place in the text. -/
def offset : SyntaxError → Nat
  | unexpected o _ | unclosed o | unopened o | unfinished o | argumentCount o _ _ |
    invalidNumber o => o

/-- The same error in a text that has `n` more bytes in front. -/
def shift (n : Nat) : SyntaxError → SyntaxError
  | unexpected o c => unexpected (o + n) c
  | unclosed o => unclosed (o + n)
  | unopened o => unopened (o + n)
  | unfinished o => unfinished (o + n)
  | argumentCount o expected found => argumentCount (o + n) expected found
  | invalidNumber o => invalidNumber (o + n)

def message : SyntaxError → String
  | unexpected o c =>
    "syntax error at offset " ++ Number.natText o ++ ": unexpected '" ++ c.toString ++ "'"
  | unclosed o => "unmatched '(' at offset " ++ Number.natText o
  | unopened o => "unmatched ')' at offset " ++ Number.natText o
  | unfinished o => "unexpected end of expression at offset " ++ Number.natText o
  | argumentCount o expected found =>
    "expected " ++ Number.natText expected ++ " argument(s), found " ++ Number.natText found ++
      " at offset " ++ Number.natText o
  | invalidNumber o => "invalid number at offset " ++ Number.natText o

@[simp] theorem offset_shift (n : Nat) (e : SyntaxError) : (e.shift n).offset = e.offset + n := by
  cases e <;> rfl

end SyntaxError

end ImplicitPlot.Expression

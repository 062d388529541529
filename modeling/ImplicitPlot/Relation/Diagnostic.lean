import ImplicitPlot.Relation.Basic

/-
  Diagnostics: the message of an error, the text it is about, and a caret below the character at
  which it shows. The caret's column counts characters, while errors count bytes.
-/
namespace ImplicitPlot.Relation

/-- The number of characters in the first `offset` bytes of a text. An offset inside a character
counts as it is. -/
def column (text : List Char) (offset : Nat) : Nat :=
  let offset := min offset (Text.byteLength text)
  match Text.dropBytes? offset text with
  | some rest => text.length - rest.length
  | none => offset

/-- The message of an error about a text, with the text and a caret below it. -/
def Error.diagnostic (e : Error) (text : String) : String :=
  let spaces := String.ofList (List.replicate (column text.toList e.offset) ' ')
  e.message ++ "\n  " ++ text ++ "\n  " ++ spaces ++ "^"

end ImplicitPlot.Relation

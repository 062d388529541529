import ImplicitPlot.Yaml.Node
import ImplicitPlot.Number.Numeral

/-
  Typed values of a plot file, read from its nodes.

  Numbers have to be plain scalars, a text can be any scalar as it is spelled. Where entries or
  items are expected, a missing node has none.
-/
namespace ImplicitPlot.PlotFile

open Yaml

/-- A number in 32 bits. It has no sign but a plus, and no zero in front but that of a base. -/
def readWord? (cs : List Char) : Option Nat := do
  let cs := if cs.head? = some '+' then cs.tail else cs
  let n ← match cs with
    | '0' :: 'x' :: ds => Number.readNatural? 16 ds
    | '0' :: 'o' :: ds => Number.readNatural? 8 ds
    | '0' :: 'b' :: ds => Number.readNatural? 2 ds
    | '0' :: _ :: _ => none
    | ds => Number.readNatural? 10 ds
  if n < Number.twoTo 32 then some n else none

/-- The spellings of a special value. -/
def isSpelled (word : String) (spellings : List String) : Bool := spellings.contains word

/-- A double. Infinities and the value that is no number have spellings of their own, and
a numeral has to be finite. -/
def readReal? (cs : List Char) : Option Float :=
  let unsigned := if cs.head? = some '+' then cs.tail else cs
  if cs.head? = some '+' ∧ (unsigned.head? = some '+' ∨ unsigned.head? = some '-') then none
  else if isSpelled (.ofList unsigned) [".inf", ".Inf", ".INF"] then some (1.0 / 0.0)
  else if isSpelled (.ofList cs) ["-.inf", "-.Inf", "-.INF"] then some (-1.0 / 0.0)
  else if isSpelled (.ofList cs) [".nan", ".NaN", ".NAN"] then some (0.0 / 0.0)
  else (Number.readFloat? unsigned).filter Float.isFinite

/-- The text of a plain scalar. -/
def plainText? : Node → Option (List Char)
  | .scalar text true => some text.toList
  | _ => none

def word? (n : Node) : Option Nat := plainText? n >>= readWord?

def real? (n : Node) : Option Float := plainText? n >>= readReal?

def text? : Node → Option String
  | .scalar text _ => some text
  | _ => none

/-- The entries of a mapping, whose keys have to be texts. -/
def entries? : Node → Option (List (String × Node))
  | .mapping entries => entries.mapM fun (key, value) => (text? key).map (·, value)
  | .scalar "" true => some []
  | _ => none

/-- The items of a sequence. -/
def items? : Node → Option (List Node)
  | .sequence items => some items
  | .scalar "" true => some []
  | _ => none

/-- The value of a field, or what stands for it if it is not there. A field that is there twice
is refused. -/
def field? {α : Type} (entries : List (String × Node)) (name : String) (absent : α)
    (read : Node → Option α) : Option α :=
  match entries.filter fun (key, _) => key == name with
  | [] => some absent
  | [(_, value)] => read value
  | _ => none

end ImplicitPlot.PlotFile

import ImplicitPlot.Yaml.Token

/-
  The documents of a plot file as trees of nodes.

  A missing node is an empty plain scalar. The items of a sequence that is the value of a key
  need not be further right than the key; such a sequence ends where something else follows.
  Each function returns the tokens behind what it read. `behind?` refuses a list that has not
  become shorter, which ends the recursion.
-/
namespace ImplicitPlot.Yaml

inductive Node where
  | scalar (text : String) (isPlain : Bool)
  | sequence (items : List Node)
  | mapping (entries : List (Node × Node))

namespace Node

/-- What stands for a node that is not written. -/
def missing : Node := .scalar "" true

/-- Tokens fewer than some others. -/
abbrev Behind (ts : List Token) : Type := { rest : List Token // rest.length < ts.length }

/-- What was read, if that took a token. -/
def behind? {α : Type} (ts : List Token) : Option (α × List Token) → Option (α × Behind ts)
  | some (a, rest) => if h : rest.length < ts.length then some (a, ⟨rest, h⟩) else none
  | none => none

/-- Pass over the comma behind an item, which the last item goes without. -/
def withComma? {α : Type} (close : Token) : Option (α × List Token) → Option (α × List Token)
  | some (a, .comma :: rest) => some (a, rest)
  | some (a, t :: rest) => if t = close then some (a, t :: rest) else none
  | _ => none

/-- The tokens behind the one that stands in the place of the key of a bracketed entry. -/
def noKey? : List Token → Option (List Token)
  | .value :: rest | .comma :: rest | .closeBracket :: rest => some rest
  | _ => none

/-- The tokens in front of which a key or value of a block mapping is missing. -/
def entryStops : List Token := [.key, .value, .blockEnd]

/-- The tokens in front of which an item without a column of its own is missing. -/
def itemStops : List Token := .entry :: entryStops

mutual

/-- Read a node. Collections that are delimited by columns count only in a block, and items
without a column of their own only as a key or value there. -/
def read? (inBlock inMapping : Bool) (ts : List Token) : Option (Node × List Token) :=
  match ts with
  | .scalar text isPlain :: rest => some (.scalar text isPlain, rest)
  | .openBracket :: rest => (bracketed? rest).map fun (items, rest) => (.sequence items, rest)
  | .openBrace :: rest => (braced? rest).map fun (entries, rest) => (.mapping entries, rest)
  | .sequenceStart :: rest =>
    if inBlock then (items? rest).map fun (items, rest) => (.sequence items, rest) else none
  | .mappingStart :: rest =>
    if inBlock then (entries? rest).map fun (entries, rest) => (.mapping entries, rest) else none
  | .entry :: rest =>
    if inBlock && inMapping then
      (bareItems? (.entry :: rest)).map fun (items, rest) => (.sequence items, rest)
    else none
  | _ => none
termination_by 3 * ts.length + 1

/-- Read a node, which is missing if one of some tokens follows. -/
def readBefore? (stops : List Token) (inBlock inMapping : Bool) (ts : List Token) :
    Option (Node × List Token) :=
  if ts.head?.any stops.contains then some (missing, ts) else read? inBlock inMapping ts
termination_by 3 * ts.length + 2

/-- Read the value of a key, which is missing if there is no colon. -/
def value? (stops : List Token) (inBlock : Bool) (ts : List Token) :
    Option (Node × List Token) :=
  match ts with
  | .value :: rest => readBefore? stops inBlock true rest
  | rest => some (missing, rest)
termination_by 3 * ts.length

/-- Read the items of a block sequence and its end. -/
def items? (ts : List Token) : Option (List Node × List Token) :=
  match ts with
  | .blockEnd :: rest => some ([], rest)
  | .entry :: here => do
    let (item, ⟨rest, _⟩) ←
      behind? (.entry :: here) (readBefore? [.entry, .blockEnd] true false here)
    let (items, rest) ← items? rest
    return (item :: items, rest)
  | _ => none
termination_by 3 * ts.length
decreasing_by all_goals grind

/-- Read items that have no column of their own. -/
def bareItems? (ts : List Token) : Option (List Node × List Token) :=
  match ts with
  | .entry :: here => do
    let (item, ⟨rest, _⟩) ← behind? (.entry :: here) (readBefore? itemStops true false here)
    let (items, rest) ← bareItems? rest
    return (item :: items, rest)
  | _ => some ([], ts)
termination_by 3 * ts.length
decreasing_by all_goals grind

/-- Read the entries of a block mapping and its end. -/
def entries? (ts : List Token) : Option (List (Node × Node) × List Token) :=
  match ts with
  | .blockEnd :: rest => some ([], rest)
  | .key :: here => do
    let (key, ⟨next, _⟩) ← behind? (.key :: here) (readBefore? entryStops true true here)
    let (value, ⟨rest, _⟩) ← behind? (.key :: here) (value? entryStops true next)
    let (entries, rest) ← entries? rest
    return ((key, value) :: entries, rest)
  | _ => none
termination_by 3 * ts.length
decreasing_by all_goals grind

/-- Read the items of a sequence in brackets and its end. An item may be a single entry of a
mapping; the token in the place of a missing key is passed over. -/
def bracketed? (ts : List Token) : Option (List Node × List Token) :=
  match ts with
  | .closeBracket :: rest => some ([], rest)
  | .key :: here => do
    let (key, ⟨next, _⟩) ← behind? (.key :: here) <|
      match noKey? here with
      | some rest => some (missing, rest)
      | none => read? false false here
    let (value, ⟨rest, _⟩) ← behind? (.key :: here)
      (withComma? .closeBracket (value? [.comma, .closeBracket] false next))
    let (items, rest) ← bracketed? rest
    return (.mapping [(key, value)] :: items, rest)
  | here => do
    let (item, ⟨rest, _⟩) ← behind? here (withComma? .closeBracket (read? false false here))
    let (items, rest) ← bracketed? rest
    return (item :: items, rest)
termination_by 3 * ts.length + 2
decreasing_by all_goals grind

/-- Read the entries of a mapping in braces and its end. A key may go without a value. -/
def braced? (ts : List Token) : Option (List (Node × Node) × List Token) :=
  match ts with
  | .closeBrace :: rest => some ([], rest)
  | .key :: here => do
    let (key, ⟨next, _⟩) ←
      behind? (.key :: here) (readBefore? [.value, .comma, .closeBrace] false false here)
    let (value, ⟨rest, _⟩) ← behind? (.key :: here)
      (withComma? .closeBrace (value? [.comma, .closeBrace] false next))
    let (entries, rest) ← braced? rest
    return ((key, value) :: entries, rest)
  | here => do
    let (key, ⟨rest, _⟩) ← behind? here (withComma? .closeBrace (read? false false here))
    let (entries, rest) ← braced? rest
    return ((key, missing) :: entries, rest)
termination_by 3 * ts.length + 2
decreasing_by all_goals grind

end

/-- Read what stands behind a document's start. -/
def content? (ts : List Token) : Option (Node × List Token) :=
  if ts.isEmpty then some (missing, [])
  else readBefore? [.documentStart, .documentEnd] true false ts

/-- Read documents that have a start. -/
def markedDocuments? (ts : List Token) : Option (List Node) :=
  match ts with
  | [] => some []
  | .documentEnd :: rest => markedDocuments? rest
  | .documentStart :: here => do
    let (document, ⟨rest, _⟩) ← behind? (.documentStart :: here) (content? here)
    return document :: (← markedDocuments? rest)
  | _ => none
termination_by ts.length
decreasing_by all_goals grind

/-- The documents of a text. Only the first can go without a start. -/
def documents? (text : List Char) : Option (List Node) := do
  match ← tokens? text with
  | [] => return []
  | .documentStart :: ts => markedDocuments? (.documentStart :: ts)
  | ts =>
    let (document, rest) ← read? true false ts
    return document :: (← markedDocuments? rest)

end Node

end ImplicitPlot.Yaml

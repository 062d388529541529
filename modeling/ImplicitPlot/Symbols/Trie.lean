import ImplicitPlot.Symbols.Forest
import ImplicitPlot.Text.Bytes

/-
  Tries: finite maps from non-empty names to values, with lookup by the longest name that a text
  starts with. The name of a token need not be known before it is read, so `sinh` wins over
  `sin` wherever a text goes on that way.

  A trie counts its names as they come and go. `insert?` refuses the empty name and a name that
  has a value, `erase?` a name that has none.
-/
namespace ImplicitPlot.Symbols

/-- A map from names to values. -/
structure Trie (α : Type) where
  forest : Forest α
  size : Nat
  deriving DecidableEq, Repr

namespace Trie

variable {α : Type}

/-- What a walk along the characters of a name reaches. -/
structure Node (α : Type) where
  value : Option α
  below : Forest α
  deriving DecidableEq, Repr

/-- The node one character further, if some name goes on with it. -/
def Node.child? (n : Node α) (c : Char) : Option (Node α) :=
  (n.below.child? c).map fun (value, below) => ⟨value, below⟩

def empty : Trie α := ⟨.nil, 0⟩

/-- Where every walk starts. The empty name has no value. -/
def root (t : Trie α) : Node α := ⟨none, t.forest⟩

/-- The node that is reached along all characters of a name. -/
def node? (t : Trie α) (name : List Char) : Option (Node α) :=
  name.foldlM Node.child? t.root

/-- The value of a name. -/
def get? (t : Trie α) (name : List Char) : Option α := t.forest.value? name

def contains (t : Trie α) (name : List Char) : Bool := (t.get? name).isSome

/-- The trie with one more name. -/
def insert? (t : Trie α) (name : List Char) (v : α) : Option (Trie α) :=
  if name.isEmpty || t.contains name then none else some ⟨t.forest.insert v name, t.size + 1⟩

/-- The trie with one name less. -/
def erase? (t : Trie α) (name : List Char) : Option (Trie α) :=
  if t.contains name then some ⟨t.forest.erase name, t.size - 1⟩ else none

/-- All names in the order of their characters. -/
def names (t : Trie α) : List (List Char) := t.forest.entries.map (·.1)

/-- The longest name that a text starts with: its number of characters and its value. -/
def longest? (t : Trie α) (cs : List Char) : Option (Nat × α) := t.forest.longest? cs

/-- The longest name that stands at a byte offset of a text: the offset of its end and its value.
None if the offset is past the end of the text or inside a character. -/
def longestAt? (t : Trie α) (text : List Char) (start : Nat) : Option (Nat × α) := do
  let rest ← Text.dropBytes? start text
  let (n, v) ← t.longest? rest
  return (start + Text.byteLength (rest.take n), v)

theorem longest?_pos {t : Trie α} {cs : List Char} {n : Nat} {v : α}
    (h : t.longest? cs = some (n, v)) : 0 < n :=
  Forest.longest?_pos h

end Trie

end ImplicitPlot.Symbols

/-
  Forests of characters. A node carries a label, the value of the name that ends at it, the
  forest of the characters that may follow it, and the next tree of its own row. Labels of a row
  increase, so a forest lists its names in the order of their characters.

  `value?` and `longest?` read a forest, `insert` and `erase` change one name; a name is a
  non-empty list of characters. `longest?_pos` says that a match takes at least one character.
-/
namespace ImplicitPlot.Symbols

/-- Names that start with different characters, each with what may follow. -/
inductive Forest (α : Type) where
  | nil
  | node (label : Char) (value : Option α) (below : Forest α) (next : Forest α)
  deriving DecidableEq, Repr

namespace Forest

variable {α : Type}

/-- The value at the node of one character and the forest below it. -/
def child? : Forest α → Char → Option (Option α × Forest α)
  | nil, _ => none
  | node label value below next, c => if c = label then some (value, below) else next.child? c

/-- The value of a name. -/
def value? : Forest α → List Char → Option α
  | nil, _ => none
  | node _ _ _ _, [] => none
  | node label value below next, c :: cs =>
    if c = label then (if cs.isEmpty then value else below.value? cs) else next.value? (c :: cs)

/-- The single path of a name, in front of the trees of a row. -/
def path (v : α) (c : Char) (cs : List Char) (next : Forest α) : Forest α :=
  match cs with
  | [] => node c (some v) nil next
  | d :: cs => node c none (path v d cs nil) next

/-- The forest with a value for a name, whatever the name had before. -/
def insert (v : α) : Forest α → List Char → Forest α
  | f, [] => f
  | nil, c :: cs => path v c cs nil
  | node label value below next, c :: cs =>
    if c < label then path v c cs (node label value below next)
    else if c = label then
      if cs.isEmpty then node label (some v) below next
      else node label value (below.insert v cs) next
    else node label value below (next.insert v (c :: cs))

/-- A node, unless it has neither a value nor anything below it. -/
def prune (label : Char) (value : Option α) (below next : Forest α) : Forest α :=
  match value, below with
  | none, nil => next
  | _, _ => node label value below next

/-- The forest without a value for a name, and without the nodes that only led to it. -/
def erase : Forest α → List Char → Forest α
  | nil, _ => nil
  | node label value below next, [] => node label value below next
  | node label value below next, c :: cs =>
    if c = label then
      if cs.isEmpty then prune label none below next
      else prune label value (below.erase cs) next
    else node label value below (next.erase (c :: cs))

/-- The names with their values, in the order of their characters. -/
def entries : Forest α → List (List Char × α)
  | nil => []
  | node label value below next =>
    value.toList.map ([label], ·) ++
      below.entries.map (fun (name, v) => (label :: name, v)) ++ next.entries

/-- The longest name that a text starts with: its length and its value. -/
def longest? : Forest α → List Char → Option (Nat × α)
  | nil, _ => none
  | node _ _ _ _, [] => none
  | node label value below next, c :: cs =>
    if c = label then
      match below.longest? cs with
      | some (n, v) => some (n + 1, v)
      | none => value.map (1, ·)
    else next.longest? (c :: cs)

theorem longest?_pos {f : Forest α} {cs : List Char} {n : Nat} {v : α}
    (h : f.longest? cs = some (n, v)) : 0 < n := by
  induction f generalizing cs n with
  | nil => simp [longest?] at h
  | node label value below next _ ihNext =>
    cases cs with
    | nil => simp [longest?] at h
    | cons c cs =>
      rw [longest?] at h
      split at h
      · split at h
        · cases h; omega
        · cases value <;> simp at h; omega
      · exact ihNext h

end Forest

end ImplicitPlot.Symbols

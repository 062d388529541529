/-
  Positions in a text are byte offsets into its UTF-8 form. The texts themselves are lists of
  characters here, so an offset is a sum of character sizes.
  `byteLength_append` splits a length, and `dropBytes?_append` says that cutting at the length
  of a front part gives what follows it.
-/
namespace ImplicitPlot.Text

/-- The length of a text in bytes of UTF-8. -/
def byteLength : List Char → Nat
  | [] => 0
  | c :: cs => c.utf8Size + byteLength cs

/-- What follows the first `n` bytes; none past the end or inside a character. -/
def dropBytes? : Nat → List Char → Option (List Char)
  | 0, cs => some cs
  | _ + 1, [] => none
  | n + 1, c :: cs => if c.utf8Size ≤ n + 1 then dropBytes? (n + 1 - c.utf8Size) cs else none

@[simp] theorem byteLength_nil : byteLength [] = 0 := rfl

@[simp] theorem byteLength_cons (c : Char) (cs : List Char) :
    byteLength (c :: cs) = c.utf8Size + byteLength cs := rfl

@[simp] theorem byteLength_append (as bs : List Char) :
    byteLength (as ++ bs) = byteLength as + byteLength bs := by
  induction as with
  | nil => simp
  | cons c cs ih => simp [ih, Nat.add_assoc]

theorem dropBytes?_append (as bs : List Char) :
    dropBytes? (byteLength as) (as ++ bs) = some bs := by
  induction as with
  | nil => cases bs <;> rfl
  | cons c cs ih =>
    obtain ⟨k, hk⟩ : ∃ k, c.utf8Size = k + 1 := ⟨c.utf8Size - 1, by have := c.utf8Size_pos; omega⟩
    have hlen : byteLength (c :: cs) = k + byteLength cs + 1 := by simp [hk]; omega
    rw [hlen, List.cons_append, dropBytes?, if_pos (by omega)]
    rw [show k + byteLength cs + 1 - c.utf8Size = byteLength cs by omega, ih]

end ImplicitPlot.Text

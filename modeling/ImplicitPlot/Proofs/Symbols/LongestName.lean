import ImplicitPlot.Symbols.Trie

/-
  The longest name of a table that a text starts with, without the walk through a trie: look up
  the prefixes of the text as whole names, from the longest down, and take the first that has a
  value (`longestName?`). A walk keeps the last value that it has passed, which is the same
  thing (`longest?_eq_longestName?`).
-/
namespace ImplicitPlot.Symbols

variable {α : Type}

namespace Forest

theorem value?_nil (f : Forest α) : f.value? [] = none := by
  cases f <;> rfl

theorem value?_cons_self {label : Char} {value : Option α} {below next : Forest α}
    {cs : List Char} (h : cs ≠ []) :
    (node label value below next).value? (label :: cs) = below.value? cs := by
  rw [value?, if_pos rfl, if_neg (by simpa using h)]

theorem value?_cons_of_ne {label c : Char} (h : c ≠ label) (value : Option α)
    (below next : Forest α) (cs : List Char) :
    (node label value below next).value? (c :: cs) = next.value? (c :: cs) := by
  rw [value?, if_neg h]

/-- A walk finds the value of a prefix of the text, and no longer prefix has one. -/
theorem longest?_spec (f : Forest α) (cs : List Char) :
    match f.longest? cs with
    | none => ∀ k ≤ cs.length, f.value? (cs.take k) = none
    | some (n, v) => n ≤ cs.length ∧ f.value? (cs.take n) = some v ∧
        ∀ k ≤ cs.length, n < k → f.value? (cs.take k) = none := by
  induction f generalizing cs with
  | nil => intro k _; rfl
  | node label value below next ihBelow ihNext =>
    rcases cs with _ | ⟨c, cs⟩
    · intro k _
      rw [List.take_nil]
      rfl
    rw [longest?]
    by_cases h : c = label
    · subst h
      rw [if_pos rfl]
      -- a prefix of at least two characters is a name below the label
      have hlong : ∀ k, 0 < k → k ≤ cs.length →
          (node c value below next).value? ((c :: cs).take (k + 1)) =
            below.value? (cs.take k) := by
        intro k hk hle
        rw [List.take_succ_cons, value?_cons_self]
        intro hnil
        have hlength := congrArg List.length hnil
        rw [List.length_take, List.length_nil] at hlength
        omega
      have hone : (node c value below next).value? ((c :: cs).take 1) = value := by
        simp [value?]
      have hbelow := ihBelow cs
      rcases hlongest : below.longest? cs with _ | ⟨n, v⟩ <;> rw [hlongest] at hbelow
      · have hnone : ∀ k ≤ (c :: cs).length, 1 < k →
            (node c value below next).value? ((c :: cs).take k) = none := by
          intro k hk hlt
          obtain ⟨j, rfl⟩ : ∃ j, k = j + 1 := ⟨k - 1, by omega⟩
          rw [List.length_cons] at hk
          rw [hlong j (by omega) (by omega)]
          exact hbelow j (by omega)
        cases value with
        | none =>
          intro k hk
          rcases Nat.lt_trichotomy k 1 with hlt | rfl | hgt
          · obtain rfl : k = 0 := by omega
            exact value?_nil _
          · exact hone
          · exact hnone k hk hgt
        | some v => exact ⟨Nat.le_add_left _ _, hone, hnone⟩
      · obtain ⟨hn, hv, hlonger⟩ := hbelow
        have hpos : 0 < n := longest?_pos hlongest
        refine ⟨Nat.succ_le_succ hn, by rw [hlong n hpos hn]; exact hv, ?_⟩
        intro k hk hlt
        obtain ⟨j, rfl⟩ : ∃ j, k = j + 1 := ⟨k - 1, by omega⟩
        rw [List.length_cons] at hk
        rw [hlong j (by omega) (by omega)]
        exact hlonger j (by omega) (by omega)
    · rw [if_neg h]
      have hsame : ∀ k, (node label value below next).value? ((c :: cs).take k) =
          next.value? ((c :: cs).take k) := by
        intro k
        cases k with
        | zero => rw [List.take_zero, value?_nil, value?_nil]
        | succ k => rw [List.take_succ_cons, value?_cons_of_ne h]
      simp only [hsame]
      exact ihNext (c :: cs)

end Forest

namespace Trie

/-- The longest name among the prefixes of a text of at most `n` characters. -/
def nameUpTo? (t : Trie α) (cs : List Char) : Nat → Option (Nat × α)
  | 0 => none
  | n + 1 =>
    match t.get? (cs.take (n + 1)) with
    | some v => some (n + 1, v)
    | none => nameUpTo? t cs n

/-- The longest name that a text starts with, by the values of whole names alone. -/
def longestName? (t : Trie α) (cs : List Char) : Option (Nat × α) := t.nameUpTo? cs cs.length

theorem nameUpTo?_of_none {t : Trie α} {cs : List Char} {m n : Nat} (hmn : m ≤ n)
    (h : ∀ k ≤ n, m < k → t.get? (cs.take k) = none) : t.nameUpTo? cs n = t.nameUpTo? cs m := by
  induction n with
  | zero => rw [Nat.le_zero.mp hmn]
  | succ n ih =>
    rcases Nat.eq_or_lt_of_le hmn with rfl | hlt
    · rfl
    · rw [nameUpTo?, h (n + 1) (Nat.le_refl _) hlt]
      exact ih (by omega) fun k hk => h k (by omega)

theorem longest?_eq_longestName? (t : Trie α) (cs : List Char) :
    t.longest? cs = t.longestName? cs := by
  have hspec := Forest.longest?_spec t.forest cs
  unfold longest? longestName?
  rcases h : t.forest.longest? cs with _ | ⟨n, v⟩ <;> rw [h] at hspec
  · rw [nameUpTo?_of_none (Nat.zero_le _) fun k hk _ => hspec k hk]
    rfl
  · obtain ⟨hn, hv, hlonger⟩ := hspec
    obtain ⟨m, rfl⟩ : ∃ m, n = m + 1 := ⟨n - 1, by have := Forest.longest?_pos h; omega⟩
    rw [nameUpTo?_of_none hn hlonger, nameUpTo?]
    have hget : t.get? (cs.take (m + 1)) = some v := hv
    rw [hget]

/-- The longest name depends on the values of the fronts of the text alone. -/
theorem longest?_congr {t t' : Trie α} {cs : List Char}
    (h : ∀ front, front <+: cs → t.get? front = t'.get? front) : t.longest? cs = t'.longest? cs := by
  have hup : ∀ n, t.nameUpTo? cs n = t'.nameUpTo? cs n := by
    intro n
    induction n with
    | zero => rfl
    | succ n ih => rw [nameUpTo?, nameUpTo?, h _ (List.take_prefix _ _), ih]
  rw [longest?_eq_longestName?, longest?_eq_longestName?]
  exact hup cs.length

end Trie

end ImplicitPlot.Symbols

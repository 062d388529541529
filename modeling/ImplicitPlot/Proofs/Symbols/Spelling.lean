import ImplicitPlot.Proofs.Symbols.LongestName
import ImplicitPlot.Proofs.Symbols.Registration

/-
  What the spelling of names says about reading them. Every name of a reachable vocabulary can be
  spelled in its table (`Vocabulary.Reachable.spelled`), so no name holds a separator. A lookup by
  the longest name therefore ends at the next separator: what stands behind it makes no
  difference (`Trie.longest?_append`), and a name in front of it is found as a whole
  (`Trie.longest?_name`).
-/
namespace ImplicitPlot.Symbols

/-! ## Separators -/

theorem isDigit_of_isSeparator {d : Char} (hd : isSeparator d = true) : d.isDigit = false := by
  rw [Bool.eq_false_iff]
  intro hdigit
  have hrange : 48 ≤ d.toNat ∧ d.toNat ≤ 57 := by
    simp only [Char.isDigit, Bool.and_eq_true, decide_eq_true_eq, ge_iff_le,
      UInt32.le_iff_toNat_le] at hdigit
    exact hdigit
  simp only [isSeparator, Text.isBlank, Text.blankRanges, List.any_cons, List.any_nil,
    Bool.or_eq_true, Bool.and_eq_true, decide_eq_true_eq, beq_iff_eq, Bool.or_false] at hd
  obtain ((hblank | rfl) | rfl) | rfl := hd
  · omega
  · exact absurd hdigit (by decide)
  · exact absurd hdigit (by decide)
  · exact absurd hdigit (by decide)

theorem ne_point_of_isSeparator {d : Char} (hd : isSeparator d = true) : d ≠ '.' := by
  rintro rfl
  exact absurd hd (by decide)

theorem Table.Spells.not_mem {table : Table} {name : List Char} (h : table.Spells name) {d : Char}
    (hd : isSeparator d = true) : d ∉ name := by
  intro hmem
  have hplain := isSeparator_eq_false_iff.mpr (h.no_separator d hmem)
  rw [hd] at hplain
  cases hplain

theorem Table.Spells.not_blank {table : Table} {name : List Char} (h : table.Spells name) :
    ∀ c ∈ name, Text.isBlank c = false := fun c hc => (h.no_separator c hc).1

theorem Table.Spells.exists_cons {table : Table} {name : List Char} (h : table.Spells name) :
    ∃ c cs, name = c :: cs ∧ Text.isBlank c = false := by
  obtain ⟨c, cs, rfl⟩ := List.exists_cons_of_ne_nil h.ne_nil
  exact ⟨c, cs, rfl, (h.no_separator c List.mem_cons_self).1⟩

/-! ## Lookups by the longest name -/

namespace Trie

variable {α : Type} {t : Trie α}

/-- The longest name is one, and fits into the text. -/
theorem longest?_eq_some {cs : List Char} {n : Nat} {v : α} (h : t.longest? cs = some (n, v)) :
    n ≤ cs.length ∧ t.get? (cs.take n) = some v := by
  have hspec := Forest.longest?_spec t.forest cs
  rw [show t.forest.longest? cs = some (n, v) from h] at hspec
  exact ⟨hspec.1, hspec.2.1⟩

/-- A text that starts with no name has no longest one. -/
theorem longest?_eq_none {cs : List Char} (h : ∀ front, front <+: cs → t.get? front = none) :
    t.longest? cs = none := by
  rcases hlongest : t.longest? cs with _ | ⟨n, v⟩
  · rfl
  · have hname := (longest?_eq_some hlongest).2
    rw [h _ (List.take_prefix n cs)] at hname
    cases hname

/-- A text that is a name is its own longest name. -/
theorem longest?_name {name : List Char} {v : α} (h : t.get? name = some v) :
    t.longest? name = some (name.length, v) := by
  have hspec := Forest.longest?_spec t.forest name
  have hwhole : t.forest.value? (name.take name.length) = some v := by
    rw [List.take_length]
    exact h
  rcases hlongest : t.longest? name with _ | ⟨n, w⟩ <;>
    rw [show t.forest.longest? name = _ from hlongest] at hspec
  · rw [hspec _ (Nat.le_refl _)] at hwhole
    cases hwhole
  · obtain ⟨hn, hw, hlonger⟩ := hspec
    rcases Nat.eq_or_lt_of_le hn with rfl | hlt
    · rw [hwhole] at hw
      cases hw
      rfl
    · rw [hlonger _ (Nat.le_refl _) hlt] at hwhole
      cases hwhole

/-- A text that has no longest name starts with no name. -/
theorem get?_front_eq_none {cs front : List Char} (h : t.longest? cs = none) (hfront : front <+: cs) :
    t.get? front = none := by
  have hspec := Forest.longest?_spec t.forest cs
  rw [show t.forest.longest? cs = none from h] at hspec
  rw [List.prefix_iff_eq_take.mp hfront]
  exact hspec front.length hfront.length_le

/-- The names that a front of a text starts with are at most as long as its longest name. -/
theorem longest?_le {cs front : List Char} {n : Nat} {v w : α} (h : t.longest? cs = some (n, v))
    (hfront : front <+: cs) (hname : t.get? front = some w) : front.length ≤ n := by
  have hspec := Forest.longest?_spec t.forest cs
  rw [show t.forest.longest? cs = some (n, v) from h] at hspec
  by_contra hlt
  have hnone := hspec.2.2 front.length hfront.length_le (by omega)
  rw [← List.prefix_iff_eq_take.mp hfront] at hnone
  rw [show t.forest.value? front = some w from hname] at hnone
  cases hnone

/-- A front of a text that holds its longest name has the same one. -/
theorem longest?_front {cs front : List Char} {n : Nat} {v : α} (h : t.longest? cs = some (n, v))
    (hfront : front <+: cs) (hn : n ≤ front.length) : t.longest? front = some (n, v) := by
  obtain ⟨-, hname⟩ := longest?_eq_some h
  have htake : front.take n = cs.take n := by
    rw [List.prefix_iff_eq_take.mp hfront, List.take_take, Nat.min_eq_left hn]
  rw [← htake] at hname
  rcases hlongest : t.longest? front with _ | ⟨k, w⟩
  · rw [get?_front_eq_none hlongest (List.take_prefix n front)] at hname
    cases hname
  · obtain ⟨hk, hw⟩ := longest?_eq_some hlongest
    have hnk : n ≤ k := by
      have hle := longest?_le hlongest (List.take_prefix n front) hname
      rwa [List.length_take, Nat.min_eq_left hn] at hle
    have hkn : k ≤ n := by
      have hle := longest?_le h ((List.take_prefix k front).trans hfront) hw
      rwa [List.length_take, Nat.min_eq_left hk] at hle
    obtain rfl : k = n := Nat.le_antisymm hkn hnk
    rw [hname] at hw
    cases hw
    rfl

theorem nameUpTo?_append {cs : List Char} (rest : List Char) {n : Nat} (hn : n ≤ cs.length) :
    t.nameUpTo? (cs ++ rest) n = t.nameUpTo? cs n := by
  induction n with
  | zero => rfl
  | succ n ih => rw [nameUpTo?, nameUpTo?, List.take_append_of_le_length hn, ih (by omega)]

/-- A character that no name holds ends the longest name. -/
theorem longest?_append {d : Char} (h : ∀ name v, t.get? name = some v → d ∉ name)
    (cs rest : List Char) : t.longest? (cs ++ d :: rest) = t.longest? cs := by
  have hbeyond : ∀ k ≤ (cs ++ d :: rest).length, cs.length < k →
      t.get? ((cs ++ d :: rest).take k) = none := by
    intro k _ hk
    rcases hget : t.get? ((cs ++ d :: rest).take k) with _ | v
    · rfl
    · obtain ⟨j, hj⟩ : ∃ j, k - cs.length = j + 1 := ⟨k - cs.length - 1, by omega⟩
      refine absurd ?_ (h _ v hget)
      rw [List.take_append, hj, List.take_succ_cons]
      exact List.mem_append_right _ List.mem_cons_self
  rw [longest?_eq_longestName?, longest?_eq_longestName?, longestName?, longestName?,
    nameUpTo?_of_none (by simp) hbeyond, nameUpTo?_append _ (Nat.le_refl _)]

end Trie

/-! ## Names of a vocabulary -/

namespace Vocabulary

/-- Every name can be spelled in its table. -/
def Spelled (V : Vocabulary) : Prop :=
  ∀ table name entry, V.find? table name = some entry → table.Spells name

theorem accept_eq_ok {V V' : Vocabulary} {entry : Entry} (h : V.accept entry = .ok V') :
    V' = V.put entry ∧ entry.table.Spells entry.name.toList := by
  unfold accept at h
  split at h
  · cases h
  · rename_i hrefusal
    cases h
    exact ⟨rfl, (Entry.refusal?_eq_none_iff.mp hrefusal).1⟩

/-- A vocabulary in good order whose names can be spelled. -/
structure Legible (V : Vocabulary) : Prop where
  inOrder : V.InOrder
  spelled : V.Spelled

theorem legible_empty : empty.Legible where
  inOrder := inOrder_empty
  spelled table name entry h := by cases table <;> cases h

theorem Legible.accept {V V' : Vocabulary} (hV : V.Legible) {entry : Entry}
    (h : V.accept entry = .ok V') : V'.Legible := by
  obtain ⟨rfl, hspells⟩ := accept_eq_ok h
  refine ⟨hV.inOrder.put entry, ?_⟩
  intro table name found hfound
  rw [hV.inOrder.find?_put hspells.ne_nil] at hfound
  split at hfound
  · rename_i hplace
    rw [hplace.1, hplace.2]
    exact hspells
  · exact hV.spelled table name found hfound

theorem Legible.remove {V : Vocabulary} (hV : V.Legible) (removed : List Char) :
    (V.remove removed).Legible := by
  refine ⟨hV.inOrder.remove removed, ?_⟩
  intro table name found hfound
  rw [hV.inOrder.find?_remove] at hfound
  split at hfound
  · cases hfound
  · exact hV.spelled table name found hfound

theorem Reachable.legible {V : Vocabulary} (hV : V.Reachable) : V.Legible := by
  induction hV with
  | empty => exact legible_empty
  | @addVariable V V' σ σ' name kind x v _ h ih =>
    rw [addVariable_eq] at h
    rcases haccept : V.accept (.var ⟨name, kind, σ.cells.size⟩) with e | W <;> rw [haccept] at h
    · cases h
    · cases h
      exact ih.accept haccept
  | addFunction _ h ih => exact ih.accept (addFunction_eq _ _ _ _ ▸ h)
  | addPrefix _ h ih =>
    rw [addOperator_eq _ (show 1 ≠ 0 from Nat.one_ne_zero)] at h
    exact ih.accept h
  | addInfix _ h ih =>
    rw [addOperator_eq _ (show 2 ≠ 0 from Nat.succ_ne_zero 1)] at h
    exact ih.accept h
  | addSuffix _ h ih =>
    rw [addOperator_eq _ (show 1 ≠ 0 from Nat.one_ne_zero)] at h
    exact ih.accept h
  | @dropVariable V V' name v _ h ih =>
    rw [dropVariable?_eq, Option.map_eq_some_iff] at h
    obtain ⟨w, -, heq⟩ := h
    cases heq
    exact ih.remove name.toList

theorem Reachable.spelled {V : Vocabulary} (hV : V.Reachable) : V.Spelled := hV.legible.spelled

namespace Spelled

variable {V : Vocabulary} (hV : V.Spelled)

include hV

theorem vars {name : List Char} {v : Variable} (h : V.vars.get? name = some v) :
    Table.vars.Spells name :=
  hV .vars name (.var v) (by rw [find?, h]; rfl)

theorem operators (fixity : Fixity) {name : List Char} {op : Operator}
    (h : (V.operators fixity).get? name = some op) : fixity.table.Spells name :=
  hV fixity.table name (.operator op) (by rw [find?_operators, h]; rfl)

theorem longest?_vars {d : Char} (hd : isSeparator d = true) (cs rest : List Char) :
    V.vars.longest? (cs ++ d :: rest) = V.vars.longest? cs :=
  Trie.longest?_append (fun _ _ h => (hV.vars h).not_mem hd) cs rest

theorem longest?_operators (fixity : Fixity) {d : Char} (hd : isSeparator d = true)
    (cs rest : List Char) :
    (V.operators fixity).longest? (cs ++ d :: rest) = (V.operators fixity).longest? cs :=
  Trie.longest?_append (fun _ _ h => (hV.operators fixity h).not_mem hd) cs rest

end Spelled

end Vocabulary

end ImplicitPlot.Symbols

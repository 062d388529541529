import ImplicitPlot.Symbols.Vocabulary

/-
  The entries of a forest under the operations of a table. Inserting a name adds at most that
  name with its value, and a lookup by the longest name finds an entry whose name the text starts
  with. So whatever holds of all entries that were ever registered holds of what a lookup finds
  (`longest?_mem_entries`, `mem_entries_enter`).
-/
namespace ImplicitPlot.Symbols

variable {α : Type}

namespace Forest

/-! ## Entries of the parts -/

theorem mem_entries_node {label : Char} {value : Option α} {below next : Forest α}
    {e : List Char × α} :
    e ∈ (node label value below next).entries ↔
      (∃ v, value = some v ∧ e = ([label], v)) ∨
        (∃ name v, (name, v) ∈ below.entries ∧ e = (label :: name, v)) ∨ e ∈ next.entries := by
  simp only [entries, List.mem_append, List.mem_map, Option.mem_toList, Prod.exists,
    or_assoc]
  refine or_congr ?_ (or_congr ?_ Iff.rfl)
  · constructor
    · rintro ⟨v, hv, rfl⟩; exact ⟨v, hv, rfl⟩
    · rintro ⟨v, hv, rfl⟩; exact ⟨v, hv, rfl⟩
  · constructor
    · rintro ⟨name, v, hm, rfl⟩; exact ⟨name, v, hm, rfl⟩
    · rintro ⟨name, v, hm, rfl⟩; exact ⟨name, v, hm, rfl⟩

theorem entries_path (v : α) (c : Char) (cs : List Char) (next : Forest α) :
    (path v c cs next).entries = (c :: cs, v) :: next.entries := by
  induction cs generalizing c next with
  | nil => simp [path, entries]
  | cons d cs ih => simp [path, entries, ih]

/-! ## Entries under the operations -/

theorem mem_entries_insert {f : Forest α} {name : List Char} {v : α} {e : List Char × α}
    (h : e ∈ (f.insert v name).entries) : e = (name, v) ∨ e ∈ f.entries := by
  induction f generalizing name e with
  | nil =>
    cases name with
    | nil => exact Or.inr h
    | cons c cs =>
      rw [insert, entries_path] at h
      exact (List.mem_cons.mp h)
  | node label value below next ihBelow ihNext =>
    cases name with
    | nil => exact Or.inr h
    | cons c cs =>
      rw [insert] at h
      by_cases hlt : c < label
      · rw [if_pos hlt, entries_path] at h
        exact List.mem_cons.mp h
      rw [if_neg hlt] at h
      by_cases heq : c = label
      · subst heq
        rw [if_pos rfl] at h
        cases cs with
        | nil =>
          rw [if_pos List.isEmpty_nil, mem_entries_node] at h
          obtain ⟨w, hw, rfl⟩ | h := h
          · cases hw; exact Or.inl rfl
          · exact Or.inr (mem_entries_node.mpr (Or.inr h))
        | cons d ds =>
          rw [if_neg (by simp), mem_entries_node] at h
          obtain h | ⟨key, w, hkey, rfl⟩ | h := h
          · exact Or.inr (mem_entries_node.mpr (Or.inl h))
          · obtain hnew | hold := ihBelow hkey
            · cases hnew; exact Or.inl rfl
            · exact Or.inr (mem_entries_node.mpr (Or.inr (Or.inl ⟨key, w, hold, rfl⟩)))
          · exact Or.inr (mem_entries_node.mpr (Or.inr (Or.inr h)))
      · rw [if_neg heq, mem_entries_node] at h
        obtain h | h | h := h
        · exact Or.inr (mem_entries_node.mpr (Or.inl h))
        · exact Or.inr (mem_entries_node.mpr (Or.inr (Or.inl h)))
        · obtain hnew | hold := ihNext h
          · exact Or.inl hnew
          · exact Or.inr (mem_entries_node.mpr (Or.inr (Or.inr hold)))

/-- The longest name that a text starts with is the name of an entry. -/
theorem longest?_mem_entries {f : Forest α} {cs : List Char} {n : Nat} {v : α}
    (h : f.longest? cs = some (n, v)) : (cs.take n, v) ∈ f.entries := by
  induction f generalizing cs n with
  | nil => simp [longest?] at h
  | node label value below next ihBelow ihNext =>
    cases cs with
    | nil => simp [longest?] at h
    | cons c cs =>
      rw [longest?] at h
      rw [mem_entries_node]
      by_cases heq : c = label
      · subst heq
        rw [if_pos rfl] at h
        rcases hbelow : below.longest? cs with _ | ⟨k, w⟩
        · rw [hbelow] at h
          cases value with
          | none => simp at h
          | some w =>
            simp only [Option.map_some, Option.some.injEq, Prod.mk.injEq] at h
            obtain ⟨rfl, rfl⟩ := h
            exact Or.inl ⟨w, rfl, by simp⟩
        · rw [hbelow] at h
          simp only [Option.some.injEq, Prod.mk.injEq] at h
          obtain ⟨rfl, rfl⟩ := h
          exact Or.inr (Or.inl ⟨cs.take k, w, ihBelow hbelow, by simp⟩)
      · rw [if_neg heq] at h
        exact Or.inr (Or.inr (ihNext h))

/-- The value of a name is the value of an entry. -/
theorem value?_mem_entries {f : Forest α} {name : List Char} {v : α}
    (h : f.value? name = some v) : (name, v) ∈ f.entries := by
  induction f generalizing name with
  | nil => simp [value?] at h
  | node label value below next ihBelow ihNext =>
    cases name with
    | nil => simp [value?] at h
    | cons c cs =>
      rw [value?] at h
      rw [mem_entries_node]
      by_cases heq : c = label
      · subst heq
        rw [if_pos rfl] at h
        cases cs with
        | nil => exact Or.inl ⟨v, by simpa using h, rfl⟩
        | cons d ds => exact Or.inr (Or.inl ⟨d :: ds, v, ihBelow (by simpa using h), rfl⟩)
      · rw [if_neg heq] at h
        exact Or.inr (Or.inr (ihNext h))

end Forest

/-! ## Entries of a table -/

namespace Trie

/-- The names of a trie with their values. -/
def entries (t : Trie α) : List (List Char × α) := t.forest.entries

theorem longest?_mem_entries {t : Trie α} {cs : List Char} {n : Nat} {v : α}
    (h : t.longest? cs = some (n, v)) : (cs.take n, v) ∈ t.entries :=
  Forest.longest?_mem_entries h

theorem get?_mem_entries {t : Trie α} {name : List Char} {v : α} (h : t.get? name = some v) :
    (name, v) ∈ t.entries :=
  Forest.value?_mem_entries h

theorem mem_entries_insert? {t t' : Trie α} {name : List Char} {v : α} {e : List Char × α}
    (h : t.insert? name v = some t') (he : e ∈ t'.entries) : e = (name, v) ∨ e ∈ t.entries := by
  unfold insert? at h
  split at h
  · cases h
  · cases h; exact Forest.mem_entries_insert he

end Trie

namespace Vocabulary

theorem mem_entries_enter {table : Table} {t t' : Trie α} {name : String} {v : α}
    {e : List Char × α} (h : enter table t name v = .ok t') (he : e ∈ t'.entries) :
    e = (name.toList, v) ∨ e ∈ t.entries := by
  unfold enter at h
  split at h
  · split at h
    · rename_i t₁ hinsert
      cases h
      exact Trie.mem_entries_insert? hinsert he
    · cases h
  · cases h

end Vocabulary

end ImplicitPlot.Symbols

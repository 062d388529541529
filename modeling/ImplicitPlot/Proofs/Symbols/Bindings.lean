import ImplicitPlot.Proofs.Symbols.Canonical
import ImplicitPlot.Proofs.Symbols.Entries
import Mathlib.Data.Finmap

/-
  A trie is a finite map. The same insertions and erasures are made on a trie and on a finite map
  from names to values, one that knows nothing of characters; the two give the same answers, hold
  the same values and have the same size (`Trie.Holds.change` for one change, `Trie.holds_changed`
  for all of them). The trie lists its names in the order of their characters, each of them once
  (`Forest.Canonical.sorted_entries`).
-/
namespace ImplicitPlot.Symbols

variable {α : Type}

/-! ## Names in order -/

namespace Forest

theorem head_mem_labels {f : Forest α} {name : List Char} {v : α} (h : (name, v) ∈ f.entries) :
    ∃ c cs, name = c :: cs ∧ c ∈ f.labels := by
  induction f generalizing name with
  | nil => cases h
  | node label value below next _ ihNext =>
    rw [mem_entries_node] at h
    obtain ⟨w, -, heq⟩ | ⟨key, w, -, heq⟩ | h := h
    · cases heq
      exact ⟨label, [], rfl, List.mem_cons_self⟩
    · cases heq
      exact ⟨label, key, rfl, List.mem_cons_self⟩
    · obtain ⟨c, cs, rfl, hc⟩ := ihNext h
      exact ⟨c, cs, rfl, List.mem_cons_of_mem label hc⟩

/-- The entries of a canonical forest are its names with their values. -/
theorem Canonical.mem_entries_iff {f : Forest α} (hf : f.Canonical) {name : List Char} {v : α} :
    (name, v) ∈ f.entries ↔ f.value? name = some v := by
  refine ⟨fun h => ?_, value?_mem_entries⟩
  induction hf generalizing name with
  | nil => cases h
  | @node label value below next hlabel hlive hbelow hnext ihBelow ihNext =>
    rw [mem_entries_node] at h
    obtain ⟨w, hw, heq⟩ | ⟨key, w, hkey, heq⟩ | h := h
    · cases heq
      rw [value?_singleton, hw]
    · cases heq
      obtain ⟨c, cs, rfl, -⟩ := head_mem_labels hkey
      rw [value?_cons_self (by simp)]
      exact ihBelow hkey
    · obtain ⟨c, cs, rfl, hc⟩ := head_mem_labels h
      rw [value?_cons_of_ne (ne_of_gt (hlabel c hc))]
      exact ihNext h

/-- A canonical forest lists its names in increasing order. -/
theorem Canonical.sorted_entries {f : Forest α} (hf : f.Canonical) :
    (f.entries.map (·.1)).Pairwise (· < ·) := by
  induction hf with
  | nil => exact List.Pairwise.nil
  | @node label value below next hlabel hlive hbelow hnext ihBelow ihNext =>
    have hheads : ∀ name ∈ next.entries.map (·.1), ∀ cs, label :: cs < name := by
      intro name hname cs
      obtain ⟨e, he, rfl⟩ := List.mem_map.mp hname
      obtain ⟨c, ds, heq, hc⟩ := head_mem_labels he
      rw [heq, List.cons_lt_cons_iff]
      exact Or.inl (hlabel c hc)
    have hbelows : ((below.entries.map (·.1)).map (label :: ·)).Pairwise (· < ·) := by
      rw [List.pairwise_map]
      refine ihBelow.imp fun h => ?_
      rw [List.cons_lt_cons_iff]
      exact Or.inr ⟨rfl, h⟩
    have hnames : (Forest.node label value below next).entries.map (·.1) =
        (value.toList.map fun _ => [label]) ++
          ((below.entries.map (·.1)).map (label :: ·) ++ next.entries.map (·.1)) := by
      simp only [entries, List.map_append, List.map_map, List.append_assoc]
      rfl
    rw [hnames, List.pairwise_append, List.pairwise_append]
    refine ⟨by cases value <;> simp, ⟨hbelows, ihNext, ?_⟩, ?_⟩
    · intro name hname other hother
      obtain ⟨cs, -, rfl⟩ := List.mem_map.mp hname
      exact hheads other hother cs
    · intro name hname other hother
      obtain ⟨w, -, rfl⟩ := List.mem_map.mp hname
      rcases List.mem_append.mp hother with hother | hother
      · obtain ⟨cs, hcs, rfl⟩ := List.mem_map.mp hother
        obtain ⟨e, he, rfl⟩ := List.mem_map.mp hcs
        obtain ⟨c, ds, heq, -⟩ := head_mem_labels he
        rw [heq, List.cons_lt_cons_iff]
        exact Or.inr ⟨rfl, List.nil_lt_cons c ds⟩
      · exact hheads other hother []

end Forest

/-! ## Changes -/

/-- A change of one name. -/
inductive Change (α : Type) where
  | insert (name : List Char) (v : α)
  | erase (name : List Char)

/-- Make changes one after the other. The answers say which of them were made. -/
def replay {S : Type} (step : S → Change α → Bool × S) (s : S) : List (Change α) → List Bool × S
  | [] => ([], s)
  | c :: changes =>
    ((step s c).1 :: (replay step (step s c).2 changes).1, (replay step (step s c).2 changes).2)

namespace Trie

/-- Whether a change is made, and the trie after it; one that is not made changes nothing. -/
def change (t : Trie α) : Change α → Bool × Trie α
  | .insert name v =>
    match t.insert? name v with
    | some t' => (true, t')
    | none => (false, t)
  | .erase name =>
    match t.erase? name with
    | some t' => (true, t')
    | none => (false, t)

theorem change_of_not_made (t : Trie α) (c : Change α) (h : (t.change c).1 = false) :
    (t.change c).2 = t := by
  cases c with
  | insert name v =>
    rw [change] at h ⊢
    split at h
    · cases h
    · rfl
  | erase name =>
    rw [change] at h ⊢
    split at h
    · cases h
    · rfl

/-- The trie that changes make of the empty one. -/
def changed (changes : List (Change α)) : Trie α := (replay change empty changes).2

end Trie

/-- A finite map from names to values. -/
abbrev Bindings (α : Type) : Type := Finmap fun _ : List Char => α

namespace Bindings

/-- Whether a change is made, and the map after it: only a name that is not empty can get a value,
and only one that has none; only a name that has a value can lose it. -/
def change (m : Bindings α) : Change α → Bool × Bindings α
  | .insert name v => if name = [] ∨ name ∈ m then (false, m) else (true, m.insert name v)
  | .erase name => if name ∈ m then (true, m.erase name) else (false, m)

/-- The map that changes make of the empty one. -/
def changed (changes : List (Change α)) : Bindings α := (replay change ∅ changes).2

theorem lookup_insert (m : Bindings α) (name : List Char) (v : α) (other : List Char) :
    (m.insert name v).lookup other = if other = name then some v else m.lookup other := by
  by_cases heq : other = name
  · rw [if_pos heq, heq, Finmap.lookup_insert]
  · rw [if_neg heq, Finmap.lookup_insert_of_ne m heq]

theorem lookup_erase (m : Bindings α) (name other : List Char) :
    (m.erase name).lookup other = if other = name then none else m.lookup other := by
  by_cases heq : other = name
  · rw [if_pos heq, heq, Finmap.lookup_erase]
  · rw [if_neg heq, Finmap.lookup_erase_ne heq]

theorem change_insert_made (m : Bindings α) (name : List Char) (v : α) :
    (m.change (.insert name v)).1 = true ↔ name ≠ [] ∧ name ∉ m := by
  rw [change]
  split
  · rename_i hrefused
    simpa using (or_iff_not_imp_left.mp hrefused)
  · rename_i hmade
    simpa [not_or] using hmade

theorem lookup_change_insert {m : Bindings α} {name : List Char} {v : α}
    (h : (m.change (.insert name v)).1 = true) (other : List Char) :
    (m.change (.insert name v)).2.lookup other =
      if other = name then some v else m.lookup other := by
  rw [change_insert_made] at h
  rw [change, if_neg (not_or.mpr h)]
  exact m.lookup_insert name v other

theorem change_erase_made (m : Bindings α) (name : List Char) :
    (m.change (.erase name)).1 = true ↔ name ∈ m := by
  rw [change]
  split <;> simpa

theorem lookup_change_erase (m : Bindings α) (name other : List Char) :
    (m.change (.erase name)).2.lookup other = if other = name then none else m.lookup other := by
  rw [change]
  split
  · exact m.lookup_erase name other
  · rename_i hfree
    by_cases heq : other = name
    · rw [if_pos heq, heq, Finmap.lookup_eq_none.mpr hfree]
    · rw [if_neg heq]

end Bindings

namespace Trie

/-- A trie in good order that holds the values of a map. -/
structure Holds (t : Trie α) (m : Bindings α) : Prop where
  canonical : t.forest.Canonical
  get_eq : ∀ name, t.get? name = m.lookup name
  size_eq : t.size = m.keys.card

namespace Holds

variable {t : Trie α} {m : Bindings α}

theorem contains_iff (h : t.Holds m) {name : List Char} :
    t.contains name = true ↔ name ∈ m := by
  rw [contains, h.get_eq]
  exact Finmap.lookup_isSome

theorem nil_not_mem (h : t.Holds m) : [] ∉ m := by
  rw [← h.contains_iff, contains, get?, Forest.value?_nil]
  simp

theorem insert?_eq (h : t.Holds m) (name : List Char) (v : α) :
    t.insert? name v = if name = [] ∨ name ∈ m then none
      else some ⟨t.forest.insert v name, t.size + 1⟩ := by
  rw [insert?]
  refine if_congr ?_ rfl rfl
  rw [Bool.or_eq_true, List.isEmpty_iff, h.contains_iff]

theorem erase?_eq (h : t.Holds m) (name : List Char) :
    t.erase? name = if name ∈ m then some ⟨t.forest.erase name, t.size - 1⟩ else none := by
  rw [erase?]
  exact if_congr h.contains_iff rfl rfl

theorem insert (h : t.Holds m) {name : List Char} (hname : name ≠ []) (hfree : name ∉ m) (v : α) :
    Holds ⟨t.forest.insert v name, t.size + 1⟩ (m.insert name v) where
  canonical := h.canonical.insert v name
  get_eq other := by
    have hget : t.forest.value? other = m.lookup other := h.get_eq other
    show (t.forest.insert v name).value? other = _
    rw [h.canonical.value?_insert v hname, hget]
    exact (Bindings.lookup_insert m name v other).symm
  size_eq := by
    have hkeys : (m.insert name v).keys = Insert.insert name m.keys := by
      ext other
      rw [Finmap.mem_keys, Finmap.mem_insert, Finset.mem_insert, Finmap.mem_keys]
    have hnew : name ∉ m.keys := by rwa [Finmap.mem_keys]
    rw [hkeys, Finset.card_insert_of_notMem hnew, h.size_eq]

theorem erase (h : t.Holds m) {name : List Char} (hbound : name ∈ m) :
    Holds ⟨t.forest.erase name, t.size - 1⟩ (m.erase name) where
  canonical := h.canonical.erase name
  get_eq other := by
    have hget : t.forest.value? other = m.lookup other := h.get_eq other
    show (t.forest.erase name).value? other = _
    rw [h.canonical.value?_erase, hget]
    exact (Bindings.lookup_erase m name other).symm
  size_eq := by
    have hkey : name ∈ m.keys := Finmap.mem_keys.mpr hbound
    rw [Finmap.keys_erase, Finset.card_erase_of_mem hkey, h.size_eq]

/-- A trie and the map that it holds make the same changes. -/
theorem change (h : t.Holds m) (c : Change α) :
    (t.change c).1 = (m.change c).1 ∧ (t.change c).2.Holds (m.change c).2 := by
  cases c with
  | insert name v =>
    rw [Trie.change, Bindings.change, h.insert?_eq]
    by_cases hrefused : name = [] ∨ name ∈ m
    · rw [if_pos hrefused, if_pos hrefused]
      exact ⟨rfl, h⟩
    · rw [if_neg hrefused, if_neg hrefused]
      rw [not_or] at hrefused
      exact ⟨rfl, h.insert hrefused.1 hrefused.2 v⟩
  | erase name =>
    rw [Trie.change, Bindings.change, h.erase?_eq]
    by_cases hbound : name ∈ m
    · rw [if_pos hbound, if_pos hbound]
      exact ⟨rfl, h.erase hbound⟩
    · rw [if_neg hbound, if_neg hbound]
      exact ⟨rfl, h⟩

/-- A trie and the map that it holds give the same answers to changes and hold the same after. -/
theorem replay (h : t.Holds m) (changes : List (Change α)) :
    (Symbols.replay Trie.change t changes).1 = (Symbols.replay Bindings.change m changes).1 ∧
      (Symbols.replay Trie.change t changes).2.Holds
        (Symbols.replay Bindings.change m changes).2 := by
  induction changes generalizing t m with
  | nil => exact ⟨rfl, h⟩
  | cons c changes ih =>
    obtain ⟨hanswer, hnext⟩ := h.change c
    obtain ⟨hanswers, hlast⟩ := ih hnext
    simp only [Symbols.replay]
    rw [hanswer, hanswers]
    exact ⟨rfl, hlast⟩

theorem mem_names_iff (h : t.Holds m) {name : List Char} : name ∈ t.names ↔ name ∈ m := by
  rw [← Finmap.lookup_isSome, ← h.get_eq, Option.isSome_iff_exists, names, List.mem_map]
  constructor
  · rintro ⟨⟨key, v⟩, hmem, rfl⟩
    exact ⟨v, h.canonical.mem_entries_iff.mp hmem⟩
  · rintro ⟨v, hv⟩
    exact ⟨(name, v), h.canonical.mem_entries_iff.mpr hv, rfl⟩

theorem change_insert (h : t.Holds m) (name : List Char) (v : α) :
    ((t.change (.insert name v)).1 = true ↔ name ≠ [] ∧ name ∉ m) ∧
      ((t.change (.insert name v)).1 = true → ∀ other,
        (t.change (.insert name v)).2.get? other =
          if other = name then some v else t.get? other) := by
  obtain ⟨hanswer, hafter⟩ := h.change (.insert name v)
  rw [hanswer]
  refine ⟨m.change_insert_made name v, fun hmade other => ?_⟩
  rw [hafter.get_eq, h.get_eq]
  exact Bindings.lookup_change_insert hmade other

theorem change_erase (h : t.Holds m) (name : List Char) :
    ((t.change (.erase name)).1 = true ↔ name ∈ m) ∧
      (∀ other, (t.change (.erase name)).2.get? other =
        if other = name then none else t.get? other) ∧
      ((t.change (.erase name)).1 = true → (t.change (.erase name)).2.size + 1 = t.size) := by
  obtain ⟨hanswer, hafter⟩ := h.change (.erase name)
  rw [hanswer, m.change_erase_made]
  refine ⟨Iff.rfl, fun other => ?_, fun hbound => ?_⟩
  · rw [hafter.get_eq, h.get_eq]
    exact m.lookup_change_erase name other
  · -- a name that is there has been counted, so the count is not zero
    have hcard : 0 < m.keys.card := Finset.card_pos.mpr ⟨name, Finmap.mem_keys.mpr hbound⟩
    have hsize : t.size = m.keys.card := h.size_eq
    rw [Trie.change, h.erase?_eq, if_pos hbound]
    show t.size - 1 + 1 = t.size
    omega

end Holds

theorem holds_empty : (empty : Trie α).Holds ∅ where
  canonical := .nil
  get_eq _ := rfl
  size_eq := rfl

theorem holds_changed (changes : List (Change α)) :
    (changed changes).Holds (Bindings.changed changes) :=
  (holds_empty.replay changes).2

/-- A trie is a finite map from names that are not empty. After any changes it has given the same
answers as the map, holds the same values, and has as many names. An insertion is made exactly if
its name is not empty and has no value, an erasure exactly if its name has one; each changes the
value of its name alone, one that is not made changes nothing, and an erasure that is made always
finds a name to count down. The names are listed in increasing order, each of them once. -/
theorem changed_refines_bindings (changes : List (Change α)) :
    let t := changed changes
    let m := Bindings.changed changes
    (replay change empty changes).1 = (replay Bindings.change ∅ changes).1 ∧
      [] ∉ m ∧
      (∀ name, t.get? name = m.lookup name ∧ (t.contains name = true ↔ name ∈ m)) ∧
      (∀ name v, ((t.change (.insert name v)).1 = true ↔ name ≠ [] ∧ name ∉ m) ∧
        ((t.change (.insert name v)).1 = true → ∀ other,
          (t.change (.insert name v)).2.get? other =
            if other = name then some v else t.get? other)) ∧
      (∀ name, ((t.change (.erase name)).1 = true ↔ name ∈ m) ∧
        (∀ other, (t.change (.erase name)).2.get? other =
          if other = name then none else t.get? other) ∧
        ((t.change (.erase name)).1 = true → (t.change (.erase name)).2.size + 1 = t.size)) ∧
      (∀ c, (t.change c).1 = false → (t.change c).2 = t) ∧
      t.size = m.keys.card ∧
      t.names.Pairwise (· < ·) ∧ ∀ name, name ∈ t.names ↔ name ∈ m := by
  intro t m
  have h : t.Holds m := holds_changed changes
  exact ⟨(holds_empty.replay changes).1, h.nil_not_mem,
    fun name => ⟨h.get_eq name, h.contains_iff⟩, h.change_insert, h.change_erase,
    t.change_of_not_made, h.size_eq, h.canonical.sorted_entries, fun name => h.mem_names_iff⟩

end Trie

end ImplicitPlot.Symbols

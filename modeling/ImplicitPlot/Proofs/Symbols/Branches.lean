import ImplicitPlot.Proofs.Symbols.Bindings

/-
  The branches of a trie that was made by insertions and erasures. A walk along some characters
  gets through exactly if a name with a value starts with them, so no branch is dead: whatever a
  walk reaches behind the root has a value at it or below it (`Forest.Canonical.child?` carries
  this along one character, `Trie.live_of_walk` along a text). Two tries that hold the same values
  are the same trie (`Trie.Holds.unique`), so the order of the changes and whatever was inserted
  and erased in between leave no trace.
-/
namespace ImplicitPlot.Symbols

variable {α : Type}

namespace Forest

/-- What a child holds is the value of one more character and the names that go on with it. -/
theorem value?_of_child? {f below : Forest α} {c : Char} {value : Option α}
    (h : f.child? c = some (value, below)) (cs : List Char) :
    f.value? (c :: cs) = if cs = [] then value else below.value? cs := by
  induction f with
  | nil => cases h
  | node label value' below' next _ ihNext =>
    rw [child?] at h
    by_cases hc : c = label
    · rw [if_pos hc] at h
      cases h
      subst hc
      by_cases hcs : cs = []
      · rw [if_pos hcs, hcs, value?_singleton]
      · rw [if_neg hcs, value?_cons_self hcs]
    · rw [if_neg hc] at h
      rw [value?_cons_of_ne hc]
      exact ihNext h

theorem value?_of_child?_eq_none {f : Forest α} {c : Char} (h : f.child? c = none)
    (cs : List Char) : f.value? (c :: cs) = none := by
  induction f with
  | nil => rfl
  | node label value below next _ ihNext =>
    rw [child?] at h
    by_cases hc : c = label
    · rw [if_pos hc] at h
      cases h
    · rw [if_neg hc] at h
      rw [value?_cons_of_ne hc]
      exact ihNext h

/-- A child has a canonical forest below, and a value unless something is there. -/
theorem Canonical.child? {f below : Forest α} (hf : f.Canonical) {c : Char} {value : Option α}
    (h : f.child? c = some (value, below)) :
    below.Canonical ∧ (value = none → below ≠ Forest.nil) := by
  induction hf with
  | nil => cases h
  | @node label _ _ next _ hlive hbelow _ _ ihNext =>
    rw [Forest.child?] at h
    by_cases hc : c = label
    · rw [if_pos hc] at h
      cases h
      exact ⟨hbelow, hlive⟩
    · rw [if_neg hc] at h
      exact ihNext h

end Forest

namespace Trie

/-! ## Walks -/

/-- The first step of a walk and the rest of it. -/
theorem walk_cons {n m : Node α} {c : Char} {cs : List Char} :
    (c :: cs).foldlM Node.child? n = some m ↔
      ∃ value below, n.below.child? c = some (value, below) ∧
        cs.foldlM Node.child? ⟨value, below⟩ = some m := by
  rw [List.foldlM_cons, Option.bind_eq_bind, Option.bind_eq_some_iff]
  simp only [Node.child?, Option.map_eq_some_iff, Prod.exists]
  constructor
  · rintro ⟨_, ⟨value, below, hchild, rfl⟩, hrest⟩
    exact ⟨value, below, hchild, hrest⟩
  · rintro ⟨value, below, hchild, hrest⟩
    exact ⟨_, ⟨value, below, hchild, rfl⟩, hrest⟩

/-- A walk reaches the value of its text and the names that go on from there. -/
theorem value?_of_walk {s : List Char} (hs : s ≠ []) {n m : Node α}
    (h : s.foldlM Node.child? n = some m) (rest : List Char) :
    n.below.value? (s ++ rest) = if rest = [] then m.value else m.below.value? rest := by
  induction s generalizing n with
  | nil => exact absurd rfl hs
  | cons c cs ih =>
    obtain ⟨value, below, hchild, hrest⟩ := walk_cons.mp h
    rw [List.cons_append, Forest.value?_of_child? hchild]
    by_cases hcs : cs = []
    · subst hcs
      cases hrest
      rfl
    · have hlong : cs ++ rest ≠ [] := by simp [hcs]
      rw [if_neg hlong]
      exact ih hcs hrest

/-- A walk from a canonical forest ends at a node with a value at it or below it. -/
theorem live_of_walk {s : List Char} (hs : s ≠ []) {n m : Node α} (hn : n.below.Canonical)
    (h : s.foldlM Node.child? n = some m) :
    m.value.isSome = true ∨ ∃ rest, rest ≠ [] ∧ (m.below.value? rest).isSome = true := by
  induction s generalizing n with
  | nil => exact absurd rfl hs
  | cons c cs ih =>
    obtain ⟨value, below, hchild, hrest⟩ := walk_cons.mp h
    obtain ⟨hbelow, hlive⟩ := hn.child? hchild
    by_cases hcs : cs = []
    · subst hcs
      cases hrest
      cases value with
      | some v => exact Or.inl rfl
      | none => exact Or.inr (hbelow.exists_value (hlive rfl))
    · exact ih hcs hbelow hrest

/-- A walk along the beginning of a name gets through. -/
theorem isSome_walk {s rest : List Char} {n : Node α}
    (h : (n.below.value? (s ++ rest)).isSome = true) :
    (s.foldlM Node.child? n).isSome = true := by
  induction s generalizing n with
  | nil => rfl
  | cons c cs ih =>
    rcases hchild : n.below.child? c with _ | ⟨value, below⟩
    · rw [List.cons_append, Forest.value?_of_child?_eq_none hchild] at h
      cases h
    · have hstep : (c :: cs).foldlM Node.child? n = cs.foldlM Node.child? ⟨value, below⟩ := by
        rw [List.foldlM_cons, Node.child?, hchild]
        rfl
      rw [hstep]
      rw [List.cons_append, Forest.value?_of_child? hchild] at h
      by_cases hcs : cs = []
      · rw [hcs]
        rfl
      · have hlong : cs ++ rest ≠ [] := by simp [hcs]
        rw [if_neg hlong] at h
        exact ih h

namespace Holds

variable {t t' : Trie α} {m : Bindings α}

/-- A walk gets through exactly along the beginnings of names. -/
theorem isSome_node?_iff (h : t.Holds m) (s : List Char) :
    (t.node? s).isSome = true ↔ s = [] ∨ ∃ name, t.contains name = true ∧ s <+: name := by
  constructor
  · intro hnode
    by_cases hs : s = []
    · exact Or.inl hs
    right
    obtain ⟨n, hn⟩ := Option.isSome_iff_exists.mp hnode
    have hvalue := value?_of_walk hs hn
    rcases live_of_walk hs h.canonical hn with hbound | ⟨rest, hrest, hbound⟩
    · refine ⟨s ++ [], ?_, List.prefix_append s []⟩
      rw [contains, get?, show t.forest = t.root.below from rfl, hvalue, if_pos rfl]
      exact hbound
    · refine ⟨s ++ rest, ?_, List.prefix_append s rest⟩
      rw [contains, get?, show t.forest = t.root.below from rfl, hvalue, if_neg hrest]
      exact hbound
  · rintro (rfl | ⟨name, hname, rest, rfl⟩)
    · rfl
    · exact isSome_walk hname

/-- A map is held by one trie only. -/
theorem unique (h : t.Holds m) (h' : t'.Holds m) : t = t' := by
  have hforest : t.forest = t'.forest :=
    h.canonical.ext h'.canonical fun name => (h.get_eq name).trans (h'.get_eq name).symm
  have hsize : t.size = t'.size := h.size_eq.trans h'.size_eq.symm
  cases t
  cases t'
  rw [mk.injEq]
  exact ⟨hforest, hsize⟩

/-- Erasing a name that was just inserted gives back the trie from before. -/
theorem erase?_of_insert? (h : t.Holds m) {name : List Char} {v : α}
    (hinsert : t.insert? name v = some t') : t'.erase? name = some t := by
  rw [h.insert?_eq] at hinsert
  by_cases hrefused : name = [] ∨ name ∈ m
  · rw [if_pos hrefused] at hinsert
    cases hinsert
  rw [if_neg hrefused] at hinsert
  cases hinsert
  obtain ⟨hname, hfree⟩ := not_or.mp hrefused
  have hheld := h.insert hname hfree v
  have hbound : name ∈ m.insert name v := Finmap.mem_insert.mpr (Or.inl rfl)
  have hback : (m.insert name v).erase name = m := by
    refine Finmap.ext_lookup fun other => ?_
    rw [Bindings.lookup_erase, Bindings.lookup_insert]
    by_cases heq : other = name
    · rw [if_pos heq, heq, Finmap.lookup_eq_none.mpr hfree]
    · rw [if_neg heq, if_neg heq]
  have herased := hheld.erase hbound
  rw [hback] at herased
  rw [hheld.erase?_eq, if_pos hbound, Option.some.injEq]
  exact herased.unique h

end Holds

/-- A trie has no dead branches and is determined by its values. After any changes, a walk from
the root gets through exactly along the beginnings of names that have a value, and ends, unless it
stays at the root, at a node with a value at it or below it. Whatever changes lead to the same
values lead to the same trie; in particular inserting a name and erasing it again gives back the
trie from before. -/
theorem changed_has_no_dead_branches :
    (∀ changes : List (Change α),
      let t := changed changes
      (∀ s, (t.node? s).isSome = true ↔ s = [] ∨ ∃ name, t.contains name = true ∧ s <+: name) ∧
        (∀ s n, s ≠ [] → t.node? s = some n →
          n.value.isSome = true ∨ ∃ rest, rest ≠ [] ∧ (n.below.value? rest).isSome = true) ∧
        ∀ name v t', t.insert? name v = some t' → t'.erase? name = some t) ∧
      ∀ changes changes' : List (Change α),
        (∀ name, (changed changes).get? name = (changed changes').get? name) →
          changed changes = changed changes' := by
  refine ⟨?_, fun changes changes' hsame => ?_⟩
  · intro changes t
    have h : t.Holds (Bindings.changed changes) := holds_changed changes
    exact ⟨h.isSome_node?_iff, fun s n hs hn => live_of_walk hs h.canonical hn,
      fun name v t' hinsert => h.erase?_of_insert? hinsert⟩
  · have h := holds_changed changes
    have h' := holds_changed changes'
    have hmaps : Bindings.changed changes = Bindings.changed changes' := by
      refine Finmap.ext_lookup fun name => ?_
      rw [← h.get_eq, ← h'.get_eq, hsame]
    rw [← hmaps] at h'
    exact h.unique h'

end Trie

end ImplicitPlot.Symbols

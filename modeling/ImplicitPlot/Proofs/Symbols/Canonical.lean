import ImplicitPlot.Proofs.Symbols.LongestName
import Mathlib.Data.Char

/-
  Canonical forests: the labels of every row increase, and every node has a value or something
  below it. Inserting and erasing keep a forest canonical, although each touches only the path of
  one name (`Canonical.insert`, `Canonical.erase`), and change the value of that name alone
  (`value?_insert`, `value?_erase`). A canonical forest is known from the values of its names
  (`Canonical.ext`): where two rows start with different labels, the smaller one starts a name
  that the other forest does not have.
-/
namespace ImplicitPlot.Symbols.Forest

variable {α : Type}

/-- The characters at which the trees of a row start. -/
def labels : Forest α → List Char
  | nil => []
  | node label _ _ next => label :: next.labels

/-- Labels of every row increase, and no node is without both a value and a forest below. -/
inductive Canonical : Forest α → Prop where
  | nil : Canonical nil
  | node {label : Char} {value : Option α} {below next : Forest α}
      (hlabel : ∀ c ∈ next.labels, label < c) (hlive : value = none → below ≠ .nil)
      (hbelow : Canonical below) (hnext : Canonical next) :
      Canonical (node label value below next)

/-! ## Values and labels -/

theorem value?_singleton (label : Char) (value : Option α) (below next : Forest α) :
    (node label value below next).value? [label] = value := by
  simp [value?]

/-- A name that has a value starts with a label. -/
theorem value?_of_not_mem_labels {f : Forest α} {c : Char} (h : c ∉ f.labels) (cs : List Char) :
    f.value? (c :: cs) = none := by
  induction f with
  | nil => rfl
  | node label value below next _ ihNext =>
    rw [labels, List.mem_cons, not_or] at h
    rw [value?_cons_of_ne h.1]
    exact ihNext h.2

theorem not_mem_labels_of_lt {f : Forest α} {c : Char} (h : ∀ d ∈ f.labels, c < d) :
    c ∉ f.labels :=
  fun hc => lt_irrefl c (h c hc)

/-- A character before the first label of a row is before all of them. -/
theorem lt_labels {label c : Char} (hlt : c < label) {value : Option α} {below next : Forest α}
    (hlabel : ∀ d ∈ next.labels, label < d) :
    ∀ d ∈ (node label value below next).labels, c < d := by
  intro d hd
  rcases List.mem_cons.mp hd with rfl | hd
  · exact hlt
  · exact lt_trans hlt (hlabel d hd)

/-- No other tree of a row starts with the label of the first one. -/
theorem value?_next {label : Char} {next : Forest α} (hlabel : ∀ c ∈ next.labels, label < c)
    (cs : List Char) : next.value? (label :: cs) = none :=
  value?_of_not_mem_labels (not_mem_labels_of_lt hlabel) cs

/-! ## One change at a node -/

/-- A new value at a node is the value of its label alone. -/
theorem value?_node_value (label : Char) (x value : Option α) (below next : Forest α)
    (name : List Char) :
    (node label x below next).value? name =
      if name = [label] then x else (node label value below next).value? name := by
  rcases name with _ | ⟨c, cs⟩
  · rfl
  by_cases hc : c = label
  · subst hc
    cases cs <;> simp [value?]
  · have hne : c :: cs ≠ [label] := by simp [hc]
    rw [if_neg hne, value?_cons_of_ne hc, value?_cons_of_ne hc]

/-- One new value below a node is that of one longer name. -/
theorem value?_node_below {below below' : Forest α} {cs : List Char} (hcs : cs ≠ [])
    {x : Option α}
    (h : ∀ name, below'.value? name = if name = cs then x else below.value? name)
    (label : Char) (value : Option α) (next : Forest α) (name : List Char) :
    (node label value below' next).value? name =
      if name = label :: cs then x else (node label value below next).value? name := by
  rcases name with _ | ⟨d, ds⟩
  · rfl
  by_cases hd : d = label
  · subst hd
    rcases ds with _ | ⟨e, es⟩
    · have hne : [d] ≠ d :: cs := by simpa using hcs.symm
      rw [if_neg hne, value?_singleton, value?_singleton]
    · rw [value?_cons_self (by simp), value?_cons_self (by simp), h]
      simp
  · have hne : d :: ds ≠ label :: cs := by simp [hd]
    rw [if_neg hne, value?_cons_of_ne hd, value?_cons_of_ne hd]

/-- One new value in the rest of a row is that of a name with another label. -/
theorem value?_node_next {next next' : Forest α} {c label : Char} (hc : c ≠ label)
    {cs : List Char} {x : Option α}
    (h : ∀ name, next'.value? name = if name = c :: cs then x else next.value? name)
    (value : Option α) (below : Forest α) (name : List Char) :
    (node label value below next').value? name =
      if name = c :: cs then x else (node label value below next).value? name := by
  rcases name with _ | ⟨d, ds⟩
  · rfl
  by_cases hd : d = label
  · subst hd
    have hne : d :: ds ≠ c :: cs := by simp [hc.symm]
    rw [if_neg hne]
    cases ds <;> simp [value?]
  · rw [value?_cons_of_ne hd, value?_cons_of_ne hd]
    exact h (d :: ds)

/-- Pruning takes away a node that no name needs. -/
theorem value?_prune {label : Char} {next : Forest α} (hlabel : ∀ c ∈ next.labels, label < c)
    (value : Option α) (below : Forest α) (name : List Char) :
    (prune label value below next).value? name = (node label value below next).value? name := by
  unfold prune
  split
  · rcases name with _ | ⟨c, cs⟩
    · exact value?_nil next
    by_cases hc : c = label
    · subst hc
      rw [value?_next hlabel]
      cases cs <;> simp [value?]
    · rw [value?_cons_of_ne hc]
  · rfl

/-! ## Inserting -/

theorem labels_path (v : α) (c : Char) (cs : List Char) (next : Forest α) :
    (path v c cs next).labels = c :: next.labels := by
  cases cs <;> rfl

theorem path_ne_nil (v : α) (c : Char) (cs : List Char) (next : Forest α) :
    path v c cs next ≠ nil := by
  cases cs <;> simp [path]

theorem Canonical.path {next : Forest α} (hnext : next.Canonical) {c : Char}
    (hc : ∀ d ∈ next.labels, c < d) (v : α) (cs : List Char) : (path v c cs next).Canonical := by
  induction cs generalizing c next with
  | nil => exact .node hc (by simp) .nil hnext
  | cons e es ih =>
    have hbelow : (Forest.path v e es Forest.nil).Canonical := ih .nil (by simp [labels])
    exact .node hc (fun _ => path_ne_nil v e es _) hbelow hnext

theorem value?_path {next : Forest α} {c : Char} (hc : ∀ d ∈ next.labels, c < d) (v : α)
    (cs name : List Char) :
    (path v c cs next).value? name = if name = c :: cs then some v else next.value? name := by
  -- without its value, the first node of the path is one that pruning takes away
  have hdead : (node c none nil next).value? name = next.value? name :=
    (value?_prune hc none nil name).symm
  induction cs generalizing c next name with
  | nil =>
    rw [← hdead]
    exact value?_node_value c (some v) none nil next name
  | cons e es ih =>
    have hbelow : ∀ name, (path v e es nil).value? name =
        if name = e :: es then some v else (nil : Forest α).value? name := by
      intro name
      refine ih (by simp [labels]) name ?_
      exact (value?_prune (by simp [labels]) none nil name).symm
    rw [← hdead]
    exact value?_node_below (by simp) hbelow c none next name

theorem mem_labels_insert {f : Forest α} {v : α} {c d : Char} {cs : List Char}
    (h : d ∈ (f.insert v (c :: cs)).labels) : d = c ∨ d ∈ f.labels := by
  induction f with
  | nil => simpa [insert, labels_path] using h
  | node label value below next _ ihNext =>
    rw [insert] at h
    split at h
    · simpa [labels_path] using h
    split at h
    · right
      split at h <;> exact h
    · rcases List.mem_cons.mp h with rfl | h
      · exact Or.inr List.mem_cons_self
      · exact (ihNext h).imp_right (List.mem_cons_of_mem label)

theorem insert_ne_nil (f : Forest α) (v : α) {name : List Char} (h : name ≠ []) :
    f.insert v name ≠ nil := by
  rcases name with _ | ⟨c, cs⟩
  · exact absurd rfl h
  cases f with
  | nil => exact path_ne_nil v c cs nil
  | node label value below next =>
    rw [insert]
    split
    · exact path_ne_nil v c cs _
    split
    · split <;> simp
    · simp

theorem Canonical.insert {f : Forest α} (hf : f.Canonical) (v : α) (name : List Char) :
    (f.insert v name).Canonical := by
  induction hf generalizing name with
  | nil =>
    cases name with
    | nil => exact .nil
    | cons c cs => exact Canonical.nil.path (by simp [labels]) v cs
  | @node label value below next hlabel hlive hbelow hnext ihBelow ihNext =>
    rcases name with _ | ⟨c, cs⟩
    · exact .node hlabel hlive hbelow hnext
    rw [Forest.insert]
    by_cases hlt : c < label
    · rw [if_pos hlt]
      exact (Canonical.node hlabel hlive hbelow hnext).path (lt_labels hlt hlabel) v cs
    rw [if_neg hlt]
    by_cases heq : c = label
    · rw [if_pos heq]
      rcases cs with _ | ⟨d, ds⟩
      · exact .node hlabel (by simp) hbelow hnext
      · exact .node hlabel (fun _ => insert_ne_nil below v (by simp)) (ihBelow _) hnext
    · rw [if_neg heq]
      refine .node (fun d hd => ?_) hlive hbelow (ihNext _)
      rcases mem_labels_insert hd with rfl | hd
      · exact lt_of_le_of_ne (not_lt.mp hlt) (Ne.symm heq)
      · exact hlabel d hd

/-- Inserting sets the value of one name and of no other. -/
theorem Canonical.value?_insert {f : Forest α} (hf : f.Canonical) (v : α) {name : List Char}
    (hname : name ≠ []) (other : List Char) :
    (f.insert v name).value? other = if other = name then some v else f.value? other := by
  induction hf generalizing name other with
  | nil =>
    rcases name with _ | ⟨c, cs⟩
    · exact absurd rfl hname
    · exact value?_path (by simp [labels]) v cs other
  | @node label value below next hlabel hlive hbelow hnext ihBelow ihNext =>
    rcases name with _ | ⟨c, cs⟩
    · exact absurd rfl hname
    rw [Forest.insert]
    by_cases hlt : c < label
    · rw [if_pos hlt]
      exact value?_path (lt_labels hlt hlabel) v cs other
    rw [if_neg hlt]
    by_cases heq : c = label
    · subst heq
      rw [if_pos rfl]
      rcases cs with _ | ⟨d, ds⟩
      · exact value?_node_value c (some v) value below next other
      · exact value?_node_below (by simp) (ihBelow (by simp)) c value next other
    · rw [if_neg heq]
      exact value?_node_next heq (ihNext (by simp)) value below other

/-! ## Erasing -/

theorem mem_labels_prune {label d : Char} {value : Option α} {below next : Forest α}
    (h : d ∈ (prune label value below next).labels) : d = label ∨ d ∈ next.labels := by
  unfold prune at h
  split at h
  · exact Or.inr h
  · exact List.mem_cons.mp h

theorem Canonical.prune {label : Char} {below next : Forest α}
    (hlabel : ∀ c ∈ next.labels, label < c) (hbelow : below.Canonical) (hnext : next.Canonical)
    (value : Option α) : (prune label value below next).Canonical := by
  unfold Forest.prune
  split
  · exact hnext
  · rename_i hkept
    exact .node hlabel (fun hvalue hnil => hkept hvalue hnil) hbelow hnext

theorem mem_labels_erase {f : Forest α} {d : Char} {name : List Char}
    (h : d ∈ (f.erase name).labels) : d ∈ f.labels := by
  induction f generalizing name with
  | nil => exact h
  | node label value below next _ ihNext =>
    rcases name with _ | ⟨c, cs⟩
    · exact h
    rw [erase] at h
    rw [labels, List.mem_cons]
    split at h
    · split at h <;> exact mem_labels_prune h
    · exact (List.mem_cons.mp h).imp_right fun h => ihNext h

theorem Canonical.erase {f : Forest α} (hf : f.Canonical) (name : List Char) :
    (f.erase name).Canonical := by
  induction hf generalizing name with
  | nil => exact .nil
  | @node label value below next hlabel hlive hbelow hnext ihBelow ihNext =>
    rcases name with _ | ⟨c, cs⟩
    · exact .node hlabel hlive hbelow hnext
    rw [Forest.erase]
    split
    · split
      · exact hbelow.prune hlabel hnext none
      · exact (ihBelow cs).prune hlabel hnext value
    · exact .node (fun d hd => hlabel d (mem_labels_erase hd)) hlive hbelow (ihNext _)

/-- Erasing takes the value of one name and of no other. -/
theorem Canonical.value?_erase {f : Forest α} (hf : f.Canonical) (name other : List Char) :
    (f.erase name).value? other = if other = name then none else f.value? other := by
  induction hf generalizing name other with
  | nil => simp [Forest.erase, value?]
  | @node label value below next hlabel hlive hbelow hnext ihBelow ihNext =>
    rcases name with _ | ⟨c, cs⟩
    · by_cases hother : other = []
      · rw [if_pos hother, hother, value?_nil]
      · rw [if_neg hother]
        rfl
    rw [Forest.erase]
    by_cases heq : c = label
    · subst heq
      rw [if_pos rfl]
      rcases cs with _ | ⟨d, ds⟩
      · rw [if_pos List.isEmpty_nil, value?_prune hlabel]
        exact value?_node_value c none value below next other
      · rw [if_neg (by simp), value?_prune hlabel]
        exact value?_node_below (by simp) (ihBelow (d :: ds)) c value next other
    · rw [if_neg heq]
      exact value?_node_next heq (ihNext (c :: cs)) value below other

/-! ## Canonical forests with the same values -/

/-- Every label of a canonical forest starts a name, and only labels do. -/
theorem Canonical.mem_labels_iff {f : Forest α} (hf : f.Canonical) {c : Char} :
    c ∈ f.labels ↔ ∃ cs, (f.value? (c :: cs)).isSome = true := by
  constructor
  · intro hc
    induction hf generalizing c with
    | nil => cases hc
    | @node label value below next hlabel hlive hbelow hnext ihBelow ihNext =>
      by_cases heq : c = label
      · subst heq
        cases value with
        | some v => exact ⟨[], by rw [value?_singleton]; rfl⟩
        | none =>
          -- without a value the node has something below, which starts a name
          obtain ⟨d, hd⟩ : ∃ d, d ∈ below.labels := by
            cases below with
            | nil => exact absurd rfl (hlive rfl)
            | node d _ _ _ => exact ⟨d, List.mem_cons_self⟩
          obtain ⟨cs, hcs⟩ := ihBelow hd
          exact ⟨d :: cs, by rw [value?_cons_self (by simp)]; exact hcs⟩
      · obtain ⟨cs, hcs⟩ := ihNext ((List.mem_cons.mp hc).resolve_left heq)
        exact ⟨cs, by rw [value?_cons_of_ne heq]; exact hcs⟩
  · rintro ⟨cs, hcs⟩
    by_contra hc
    rw [value?_of_not_mem_labels hc] at hcs
    cases hcs

/-- A canonical forest that is not empty has a name. -/
theorem Canonical.exists_value {f : Forest α} (hf : f.Canonical) (h : f ≠ Forest.nil) :
    ∃ name, name ≠ [] ∧ (f.value? name).isSome = true := by
  cases f with
  | nil => exact absurd rfl h
  | node label value below next =>
    obtain ⟨cs, hcs⟩ := hf.mem_labels_iff.mp List.mem_cons_self
    exact ⟨label :: cs, by simp, hcs⟩

/-- A canonical forest without a named value is empty. -/
theorem Canonical.eq_nil {f : Forest α} (hf : f.Canonical) (h : ∀ name, f.value? name = none) :
    f = Forest.nil := by
  by_contra hne
  obtain ⟨name, -, hname⟩ := hf.exists_value hne
  rw [h] at hname
  cases hname

theorem Canonical.ext {f g : Forest α} (hf : f.Canonical) (hg : g.Canonical)
    (h : ∀ name, f.value? name = g.value? name) : f = g := by
  induction hf generalizing g with
  | nil => exact (hg.eq_nil fun name => (h name).symm).symm
  | @node label value below next hlabel hlive hbelow hnext ihBelow ihNext =>
    have hf := Canonical.node hlabel hlive hbelow hnext
    cases hg with
    | nil => exact hf.eq_nil h
    | @node label' value' below' next' hlabel' hlive' hbelow' hnext' =>
      have hg := Canonical.node hlabel' hlive' hbelow' hnext'
      have hlabels : ∀ c, c ∈ (Forest.node label value below next).labels ↔
          c ∈ (Forest.node label' value' below' next').labels := by
        intro c
        rw [hf.mem_labels_iff, hg.mem_labels_iff]
        simp only [h]
      obtain rfl : label = label' := by
        rcases List.mem_cons.mp ((hlabels label).mp List.mem_cons_self) with heq | hmem
        · exact heq
        rcases List.mem_cons.mp ((hlabels label').mpr List.mem_cons_self) with heq | hmem'
        · exact heq.symm
        · exact absurd (hlabel' label hmem) (lt_asymm (hlabel label' hmem'))
      have hvalue : value = value' := by
        have hlabel := h [label]
        rwa [value?_singleton, value?_singleton] at hlabel
      have hbelows : below = below' := by
        refine ihBelow hbelow' fun name => ?_
        rcases name with _ | ⟨c, cs⟩
        · rw [value?_nil, value?_nil]
        · have hlong := h (label :: c :: cs)
          rwa [value?_cons_self (by simp), value?_cons_self (by simp)] at hlong
      have hnexts : next = next' := by
        refine ihNext hnext' fun name => ?_
        rcases name with _ | ⟨c, cs⟩
        · rw [value?_nil, value?_nil]
        by_cases hc : c = label
        · rw [hc, value?_next hlabel, value?_next hlabel']
        · have hother := h (c :: cs)
          rwa [value?_cons_of_ne hc, value?_cons_of_ne hc] at hother
      rw [hvalue, hbelows, hnexts]

end ImplicitPlot.Symbols.Forest

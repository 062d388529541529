import ImplicitPlot.Proofs.Symbols.Presets

/-
  Vocabularies that are made, copied and edited in any order. `Library` keeps them side by side in
  one store; `Registry` does the same with finite maps, which need no store but the number of its
  cells. Both run the same moves (`Shelf.move`).

  `vocabularies_are_finite_maps`: after any moves every vocabulary is five independent finite
  maps. The proof is a simulation: one move keeps a library and a registry together
  (`Library.Holds.move`), and so do all of them.
-/
namespace ImplicitPlot.Symbols

/-! ## Moves -/

/-- Tables side by side, and where they take their cells from. -/
structure Shelf (α β : Type) where
  items : List α
  source : β

/-- A call that makes, copies or changes a vocabulary. Vocabularies are known by their numbers. -/
inductive Move where
  | create (p : Preset)
  | copy (i : Nat)
  | edit (i : Nat) (e : Edit)

namespace Shelf

variable {α β : Type} {make : β → Preset → α × β} {edit : α → β → Edit → Answer × α × β}

/-- The answer to a move, if it edits something that is there, and the shelf after it. -/
def move (make : β → Preset → α × β) (edit : α → β → Edit → Answer × α × β) (S : Shelf α β) :
    Move → Option Answer × Shelf α β
  | .create p => (none, ⟨S.items ++ [(make S.source p).1], (make S.source p).2⟩)
  | .copy i => (none, ⟨S.items ++ S.items[i]?.toList, S.source⟩)
  | .edit i e =>
    match S.items[i]? with
    | some a =>
      (some (edit a S.source e).1, ⟨S.items.set i (edit a S.source e).2.1, (edit a S.source e).2.2⟩)
    | none => (none, S)

/-- What is made and edited with a property keeps it. -/
theorem forall_move {P : α → Prop} (hmake : ∀ b p, P (make b p).1)
    (hedit : ∀ a b e, P a → P (edit a b e).2.1) {S : Shelf α β} (hS : ∀ a ∈ S.items, P a)
    (m : Move) : ∀ a ∈ (S.move make edit m).2.items, P a := by
  intro a ha
  cases m with
  | create p =>
    obtain ha | ha := List.mem_append.mp ha
    · exact hS a ha
    · obtain rfl := List.mem_singleton.mp ha
      exact hmake S.source p
  | copy i =>
    obtain ha | ha := List.mem_append.mp ha
    · exact hS a ha
    · exact hS a (List.mem_of_getElem? (Option.mem_toList.mp ha))
  | edit i e =>
    rw [move] at ha
    cases hi : S.items[i]? with
    | none =>
      rw [hi] at ha
      exact hS a ha
    | some b =>
      rw [hi] at ha
      obtain ha | rfl := List.mem_or_eq_of_mem_set ha
      · exact hS a ha
      · exact hedit b S.source e (hS b (List.mem_of_getElem? hi))

/-- An edit leaves the other items alone. -/
theorem getElem?_move_edit (S : Shelf α β) (e : Edit) {i j : Nat} (hij : j ≠ i) :
    (S.move make edit (.edit i e)).2.items[j]? = S.items[j]? := by
  rw [move]
  cases S.items[i]? with
  | none => rfl
  | some a => exact List.getElem?_set_ne hij.symm

theorem move_edit {S : Shelf α β} {i : Nat} {a : α} (hi : S.items[i]? = some a) (e : Edit) :
    S.move make edit (.edit i e) = (some (edit a S.source e).1,
      ⟨S.items.set i (edit a S.source e).2.1, (edit a S.source e).2.2⟩) := by
  rw [move, hi]

/-- Where an item is replaced by itself, nothing changes. -/
theorem set_self {S : Shelf α β} {i : Nat} {a : α} (hi : S.items[i]? = some a) :
    (⟨S.items.set i a, S.source⟩ : Shelf α β) = S := by
  obtain ⟨hlt, hget⟩ := List.getElem?_eq_some_iff.mp hi
  have hset : S.items.set i a = S.items := by
    rw [← hget]
    exact List.set_getElem_self hlt
  rw [hset]

end Shelf

/-- Vocabularies with their variables in one store. -/
abbrev Library : Type := Shelf Vocabulary Store

/-- Finite maps for vocabularies, and the number of cells that there are. -/
abbrev Registry : Type := Shelf Tables Nat

namespace Library

def move (S : Library) (m : Move) : Option Answer × Library :=
  Shelf.move Preset.make Vocabulary.edit S m

/-- What moves make of a store without vocabularies. -/
def after (σ : Store) (moves : List Move) : Library :=
  moves.foldl (fun S m => (S.move m).2) ⟨[], σ⟩

end Library

namespace Registry

def move (R : Registry) (m : Move) : Option Answer × Registry :=
  Shelf.move Preset.tables Tables.edit R m

/-- What moves make of cells without tables. -/
def after (cells : Nat) (moves : List Move) : Registry :=
  moves.foldl (fun R m => (R.move m).2) ⟨[], cells⟩

end Registry

/-! ## Simulation -/

/-- What stands at one place of two lists that are related item by item. -/
theorem getElem?_of_forall₂ {α β : Type} {R : α → β → Prop} {as : List α} {bs : List β}
    (h : List.Forall₂ R as bs) (i : Nat) :
    as[i]? = none ∧ bs[i]? = none ∨ ∃ a b, as[i]? = some a ∧ bs[i]? = some b ∧ R a b := by
  induction h generalizing i with
  | nil => exact Or.inl ⟨rfl, rfl⟩
  | cons hab _ ih =>
    cases i with
    | zero => exact Or.inr ⟨_, _, rfl, rfl, hab⟩
    | succ i => exact ih i

theorem forall₂_set {α β : Type} {R : α → β → Prop} {as : List α} {bs : List β}
    (h : List.Forall₂ R as bs) {a : α} {b : β} (hab : R a b) (i : Nat) :
    List.Forall₂ R (as.set i a) (bs.set i b) := by
  induction h generalizing i with
  | nil => exact .nil
  | cons hxy hrest ih =>
    cases i with
    | zero => exact .cons hab hrest
    | succ i => exact .cons hxy (ih i)

namespace Library

/-- A library whose vocabularies hold the maps of a registry, number by number. -/
structure Holds (S : Library) (R : Registry) : Prop where
  items : List.Forall₂ Vocabulary.Holds S.items R.items
  cells : S.source.cells.size = R.source

/-- A library and a registry give the same answer to a move and stay together. -/
theorem Holds.move {S : Library} {R : Registry} (h : S.Holds R) (m : Move) :
    (S.move m).1 = (R.move m).1 ∧ (S.move m).2.Holds (R.move m).2 := by
  cases m with
  | create p =>
    obtain ⟨hmake, hcells⟩ := p.make_holds S.source
    rw [h.cells] at hmake hcells
    exact ⟨rfl, List.rel_append h.items (.cons hmake .nil), hcells⟩
  | copy i =>
    refine ⟨rfl, List.rel_append h.items ?_, h.cells⟩
    obtain ⟨hS, hR⟩ | ⟨V, T, hS, hR, hVT⟩ := getElem?_of_forall₂ h.items i
    · rw [hS, hR]
      exact .nil
    · rw [hS, hR]
      exact .cons hVT .nil
  | edit i e =>
    rw [Library.move, Registry.move, Shelf.move, Shelf.move]
    obtain ⟨hS, hR⟩ | ⟨V, T, hS, hR, hVT⟩ := getElem?_of_forall₂ h.items i
    · rw [hS, hR]
      exact ⟨rfl, h⟩
    · rw [hS, hR]
      obtain ⟨hanswer, hedit, hcells⟩ := hVT.edit S.source e
      rw [h.cells] at hanswer hedit hcells
      exact ⟨congrArg some hanswer, forall₂_set h.items hedit i, hcells⟩

theorem Holds.foldl {S : Library} {R : Registry} (h : S.Holds R) (moves : List Move) :
    (moves.foldl (fun S m => (S.move m).2) S).Holds
      (moves.foldl (fun R m => (R.move m).2) R) := by
  induction moves generalizing S R with
  | nil => exact h
  | cons m moves ih => exact ih (h.move m).2

theorem holds_after (σ : Store) (moves : List Move) :
    (after σ moves).Holds (Registry.after σ.cells.size moves) :=
  Holds.foldl ⟨.nil, rfl⟩ moves

end Library

/-! ## Entries as they must be -/

namespace Tables

/-- Every entry stands where it belongs, under its name, and suits the way it is written. -/
def Sound (T : Tables) : Prop :=
  ∀ table name entry, (T table).lookup name = some entry →
    entry.table = table ∧ entry.name.toList = name ∧ entry.Suits

theorem sound_empty : empty.Sound := by
  intro table name entry h
  cases h

theorem Sound.put {T : Tables} (hT : T.Sound) {entry : Entry} (hentry : entry.Suits) :
    (T.put entry).Sound := by
  intro table name found h
  rw [lookup_put] at h
  split at h
  · rename_i hplace
    obtain rfl := Option.some.inj h
    exact ⟨hplace.1.symm, hplace.2.symm, hentry⟩
  · exact hT table name found h

theorem Sound.putAll {T : Tables} (hT : T.Sound) {entries : List Entry}
    (hentries : ∀ entry ∈ entries, entry.Suits) : (T.putAll entries).Sound := by
  induction entries generalizing T with
  | nil => exact hT
  | cons entry entries ih =>
    refine ih (hT.put (hentries entry List.mem_cons_self)) ?_
    intro e he
    exact hentries e (List.mem_cons_of_mem entry he)

theorem Sound.remove {T : Tables} (hT : T.Sound) (name : List Char) : (T.remove name).Sound := by
  intro table other found h
  rw [lookup_remove] at h
  split at h
  · cases h
  · exact hT table other found h

theorem Sound.edit {T : Tables} (hT : T.Sound) (cells : Nat) (e : Edit) :
    (T.edit cells e).2.1.Sound := by
  cases e with
  | register r =>
    rw [Tables.edit, accept]
    cases hrefusal : (r.entry cells).refusal? ((r.entry cells).name.toList ∈ T (r.entry cells).table)
      with
    | some error => exact hT
    | none =>
      obtain ⟨-, -, hnullary⟩ := Entry.refusal?_eq_none_iff.mp hrefusal
      exact hT.put (r.suits_entry cells hnullary)
  | drop name =>
    rw [Tables.edit]
    split
    · exact hT.remove name.toList
    · exact hT

end Tables

namespace Preset

theorem suits_operators {op : Operator} (hop : op ∈ operators) : op.Suits op.fixity := by
  simp only [operators, Operator.standardInfixes, Operator.subtraction, Operator.standardPrefixes,
    Operator.standardFunctions, List.mem_append, List.mem_cons, List.not_mem_nil, or_false] at hop
  obtain (hop | hop) | hop := hop
  · obtain rfl | rfl | rfl | rfl | rfl | rfl := hop <;> exact ⟨rfl, rfl⟩
  · obtain rfl | rfl := hop <;> exact ⟨rfl, rfl⟩
  · obtain rfl | rfl | rfl | rfl | rfl | rfl | rfl | rfl | rfl | rfl | rfl | rfl | rfl | rfl |
      rfl := hop <;> exact ⟨rfl, by decide, rfl⟩

theorem suits_inCells {kind : VariableKind} {cell : Nat} {names : List String} {entry : Entry}
    (h : entry ∈ Entry.inCells kind cell names) : entry.Suits := by
  induction names generalizing cell with
  | nil => cases h
  | cons name names ih =>
    obtain rfl | h := List.mem_cons.mp h
    · trivial
    · exact ih h

theorem suits_entries (p : Preset) (cell : Nat) : ∀ entry ∈ p.entries cell, entry.Suits := by
  have hoperators : ∀ entry ∈ operators.map Entry.operator, entry.Suits := by
    intro entry h
    obtain ⟨op, hop, rfl⟩ := List.mem_map.mp h
    exact suits_operators hop
  intro entry h
  cases p with
  | empty => cases h
  | builtin =>
    obtain h | h := List.mem_append.mp h
    · exact hoperators entry h
    · exact suits_inCells h
  | standard =>
    obtain h | h := List.mem_append.mp h
    · obtain h | h := List.mem_append.mp h
      · exact hoperators entry h
      · exact suits_inCells h
    · exact suits_inCells h

end Preset

/-- Whatever moves are made, every finite map of a registry is sound. -/
theorem Registry.sound_after (cells : Nat) (moves : List Move) :
    ∀ T ∈ (Registry.after cells moves).items, T.Sound := by
  have hmake : ∀ b p, (Preset.tables b p).1.Sound := by
    intro b p
    exact Tables.sound_empty.putAll (p.suits_entries b)
  have hedit : ∀ (T : Tables) b e, T.Sound → (T.edit b e).2.1.Sound := by
    intro T b e hT
    exact hT.edit b e
  have hrun : ∀ R : Registry, (∀ T ∈ R.items, T.Sound) →
      ∀ T ∈ (moves.foldl (fun R m => (R.move m).2) R).items, T.Sound := by
    induction moves with
    | nil => exact fun R hR => hR
    | cons m moves ih => exact fun R hR => ih _ (Shelf.forall_move hmake hedit hR m)
  refine hrun ⟨[], cells⟩ ?_
  intro T hT
  cases hT

/-! ## The main theorem -/

namespace Registration

/-- A registration is good for a vocabulary if its name can be spelled in its table, is free
there, and does not stand for a function without arguments. -/
structure GoodFor (r : Registration) (cell : Nat) (V : Vocabulary) : Prop where
  spells : (r.entry cell).table.Spells (r.entry cell).name.toList
  free : V.find? (r.entry cell).table (r.entry cell).name.toList = none
  has_argument : ∀ name apply, r ≠ .called name 0 apply

theorem isNullary_entry {r : Registration} {cell : Nat} :
    (r.entry cell).isNullary = false ↔ ∀ name apply, r ≠ .called name 0 apply := by
  cases r with
  | called name arity apply =>
    simp only [entry, Entry.isNullary, Operator.called, beq_eq_false_iff_ne, ne_eq, called.injEq,
      not_and]
    constructor
    · exact fun h _ _ _ harity => absurd harity h
    · exact fun h harity => h name apply rfl harity rfl
  | free name | constant name x => simp [entry, Entry.isNullary]
  | prefixed name priority apply => simp [entry, Entry.isNullary, Operator.prefixed]
  | infixed name priority apply => simp [entry, Entry.isNullary, Operator.infixed]
  | suffixed name apply => simp [entry, Entry.isNullary, Operator.suffixed]

end Registration

namespace Vocabulary

/-- A vocabulary with one entry more than another. -/
def Gains (V : Vocabulary) (entry : Entry) (V' : Vocabulary) : Prop :=
  ∀ table name, V'.find? table name =
    if table = entry.table ∧ name = entry.name.toList then some entry else V.find? table name

/-- A vocabulary without a variable of another. -/
def Loses (V : Vocabulary) (removed : List Char) (V' : Vocabulary) : Prop :=
  ∀ table name, V'.find? table name =
    if table = .vars ∧ name = removed then none else V.find? table name

/-- A registration enters its entry if it is good, and is refused otherwise. -/
theorem InOrder.edit_register {V : Vocabulary} (hV : V.InOrder) (σ : Store) (r : Registration) :
    (r.GoodFor σ.cells.size V ∧ (V.edit σ (.register r)).1 = .entered (r.entry σ.cells.size) ∧
      V.Gains (r.entry σ.cells.size) (V.edit σ (.register r)).2.1 ∧
      (V.edit σ (.register r)).2.2 = r.storeAfter σ) ∨
    (¬r.GoodFor σ.cells.size V ∧ ∃ e, V.edit σ (.register r) = (.refused e, V, σ)) := by
  let entry := r.entry σ.cells.size
  have hfree : ¬(V.find? entry.table entry.name.toList).isSome = true ↔
      V.find? entry.table entry.name.toList = none := by
    rw [Option.not_isSome_iff_eq_none]
  rw [Vocabulary.edit, register_eq, accept]
  cases hrefusal : entry.refusal? ((V.find? entry.table entry.name.toList).isSome = true) with
  | none =>
    obtain ⟨hspells, htaken, hnullary⟩ := Entry.refusal?_eq_none_iff.mp hrefusal
    have hgood : r.GoodFor σ.cells.size V :=
      ⟨hspells, hfree.mp htaken, Registration.isNullary_entry.mp hnullary⟩
    exact Or.inl ⟨hgood, rfl, hV.find?_put hspells.ne_nil, rfl⟩
  | some e =>
    have hbad : ¬r.GoodFor σ.cells.size V := by
      intro hgood
      have hnone := Entry.refusal?_eq_none_iff.mpr
        ⟨hgood.spells, hfree.mpr hgood.free, Registration.isNullary_entry.mpr hgood.has_argument⟩
      rw [hrefusal] at hnone
      cases hnone
    exact Or.inr ⟨hbad, e, rfl⟩

/-- Dropping a name removes the variable of this name, if there is one. -/
theorem InOrder.edit_drop {V : Vocabulary} (hV : V.InOrder) (σ : Store) (name : String) :
    (∃ v, V.find? .vars name.toList = some (.var v) ∧
      (V.edit σ (.drop name)).1 = .dropped v ∧ (V.edit σ (.drop name)).2.2 = σ ∧
      V.Loses name.toList (V.edit σ (.drop name)).2.1) ∨
    (V.find? .vars name.toList = none ∧ V.edit σ (.drop name) = (.absent, V, σ)) := by
  rw [Vocabulary.edit, dropVariable?_eq, find?]
  cases V.vars.get? name.toList with
  | none => exact Or.inr ⟨rfl, rfl⟩
  | some v => exact Or.inl ⟨v, rfl, rfl, rfl, hV.find?_remove name.toList⟩

end Vocabulary

/-- Vocabularies are finite maps, five of them each, one for every table. However they are made,
copied and edited, they answer as the maps do and hold what the maps hold, and every entry stands
in its table under its name with the arity and priority that go with it. A registration is
entered exactly if it is good: then one table gains one entry, and else nothing changes. Dropping
a name takes one variable away, or nothing. No edit is seen in any other vocabulary, copies
included, and a copy is the same vocabulary. -/
theorem vocabularies_are_finite_maps (σ : Store) (moves : List Move) :
    let S := Library.after σ moves
    let R := Registry.after σ.cells.size moves
    S.items.length = R.items.length ∧ (∀ m, (S.move m).1 = (R.move m).1) ∧
    ∀ i V, S.items[i]? = some V →
      (∃ T, R.items[i]? = some T ∧ ∀ table name, V.find? table name = (T table).lookup name) ∧
      (∀ table name entry, V.find? table name = some entry →
        entry.table = table ∧ entry.name.toList = name ∧ entry.Suits) ∧
      (∀ r, let entry := r.entry S.source.cells.size
        let made := S.move (.edit i (.register r))
        (r.GoodFor S.source.cells.size V ∧ made.1 = some (.entered entry) ∧
          ∃ V', made.2.items[i]? = some V' ∧ V.Gains entry V') ∨
        (¬r.GoodFor S.source.cells.size V ∧ ∃ e, made = (some (.refused e), S))) ∧
      (∀ name, let made := S.move (.edit i (.drop name))
        (∃ v V', V.find? .vars name.toList = some (.var v) ∧ made.1 = some (.dropped v) ∧
          made.2.items[i]? = some V' ∧ made.2.source = S.source ∧ V.Loses name.toList V') ∨
        (V.find? .vars name.toList = none ∧ made = (some .absent, S))) ∧
      (∀ e j, j ≠ i → (S.move (.edit i e)).2.items[j]? = S.items[j]?) ∧
      (S.move (.copy i)).2.items = S.items ++ [V] := by
  intro S R
  have hSR : S.Holds R := Library.holds_after σ moves
  refine ⟨hSR.items.length_eq, fun m => (hSR.move m).1, ?_⟩
  intro i V hi
  obtain ⟨hnone, -⟩ | ⟨V', T, hV', hT, hVT⟩ := getElem?_of_forall₂ hSR.items i
  · rw [hi] at hnone
    cases hnone
  obtain rfl : V = V' := Option.some.inj (hi.symm.trans hV')
  have hsound : T.Sound :=
    Registry.sound_after σ.cells.size moves T (List.mem_of_getElem? hT)
  have hlt : i < S.items.length := (List.getElem?_eq_some_iff.mp hi).1
  refine ⟨⟨T, hT, hVT.entry_eq⟩, ?_, ?_, ?_, ?_, ?_⟩
  · intro table name entry h
    exact hsound table name entry (hVT.entry_eq table name ▸ h)
  · intro r
    simp only [Library.move, Shelf.move_edit hi]
    obtain ⟨hgood, hanswer, hgains, -⟩ | ⟨hbad, e, hedit⟩ := hVT.inOrder.edit_register S.source r
    · exact Or.inl ⟨hgood, congrArg some hanswer, _, List.getElem?_set_self hlt, hgains⟩
    · refine Or.inr ⟨hbad, e, ?_⟩
      rw [hedit, Shelf.set_self hi]
  · intro name
    simp only [Library.move, Shelf.move_edit hi]
    obtain ⟨v, hv, hanswer, hstore, hloses⟩ | ⟨hv, hedit⟩ := hVT.inOrder.edit_drop S.source name
    · exact Or.inl ⟨v, _, hv, congrArg some hanswer, List.getElem?_set_self hlt, hstore, hloses⟩
    · refine Or.inr ⟨hv, ?_⟩
      rw [hedit, Shelf.set_self hi]
  · intro e j hij
    exact Shelf.getElem?_move_edit S e hij
  · show S.items ++ S.items[i]?.toList = S.items ++ [V]
    rw [hi]
    rfl

end ImplicitPlot.Symbols

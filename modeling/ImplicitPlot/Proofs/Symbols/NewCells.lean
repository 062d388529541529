import ImplicitPlot.Proofs.Symbols.Shelf

/-
  Cells of a library. A move brings in variables with their values (`Move.newCells`). They go to
  new cells, one after the other behind the cells that there are, or the move is refused and there
  are no new cells (`Library.source_move`). No cell that was there is written, and no variable
  that was there shares a cell with one that is new, whatever their names are. A variable is not
  lost: one that goes out of its vocabulary is the answer to the move that dropped it
  (`Library.Has.move`).
-/
namespace ImplicitPlot.Symbols

/-! ## Stores with more cells -/

namespace Store

/-- The store with more cells behind its own. -/
def append (σ : Store) (xs : List Float) : Store := ⟨σ.cells ++ xs.toArray⟩

theorem append_nil (σ : Store) : σ.append [] = σ := by
  rw [append, Array.append_empty]

theorem append_append (σ : Store) (xs ys : List Float) :
    (σ.append xs).append ys = σ.append (xs ++ ys) := by
  simp only [append, Array.append_assoc, List.append_toArray]

theorem push_eq_append (σ : Store) (x : Float) : σ.push x = σ.append [x] := by
  rw [push, append, Array.push_eq_append]

@[simp]
theorem size_append (σ : Store) (xs : List Float) :
    (σ.append xs).cells.size = σ.cells.size + xs.length := by
  simp only [append, Array.size_append, List.size_toArray]

theorem cell_append (σ : Store) (xs : List Float) {cell : Nat} (h : cell < σ.cells.size) :
    (σ.append xs).cells[cell]? = σ.cells[cell]? := by
  rw [append, Array.getElem?_append_left h]

/-- A variable in one of the new cells. -/
theorem read_append (σ : Store) {xs : List Float} {i : Nat} {x : Float} (hi : xs[i]? = some x)
    {v : Variable} (hv : v.cell = σ.cells.size + i) : (σ.append xs).read v = x := by
  have hle : σ.cells.size ≤ v.cell := by
    rw [hv]
    exact Nat.le_add_right _ _
  have hsub : v.cell - σ.cells.size = i := by
    rw [hv, Nat.add_sub_cancel_left]
  rw [read, append, Array.getElem?_append_right hle, hsub, List.getElem?_toArray, hi,
    Option.getD_some]

end Store

/-- Variables that are added without checks fill some new cells, as not all may be admitted. -/
theorem Vocabulary.addVariables_eq_append (V : Vocabulary) (σ : Store) (kind : VariableKind)
    (vs : List (String × Float)) :
    ∃ xs, xs.Sublist (vs.map Prod.snd) ∧ (V.addVariables σ kind vs).2 = σ.append xs := by
  unfold addVariables
  induction vs generalizing V σ with
  | nil => exact ⟨[], .slnil, σ.append_nil.symm⟩
  | cons p vs ih =>
    obtain ⟨name, x⟩ := p
    rw [List.foldl_cons]
    dsimp only
    rw [addVariable_eq]
    cases V.accept (.var ⟨name, kind, σ.cells.size⟩) with
    | error e =>
      obtain ⟨xs, hsub, heq⟩ := ih V σ
      exact ⟨xs, hsub.cons x, heq⟩
    | ok V' =>
      obtain ⟨xs, hsub, heq⟩ := ih V' (σ.push x)
      refine ⟨x :: xs, hsub.cons_cons x, ?_⟩
      rw [σ.push_eq_append, Store.append_append] at heq
      exact heq

theorem Vocabulary.builtin_eq_append (σ : Store) :
    ∃ xs, xs.Sublist [3.141592653589793, 2.718281828459045] ∧ (builtin σ).2 = σ.append xs := by
  unfold builtin
  exact addVariables_eq_append _ σ .constant
    [("pi", 3.141592653589793), ("e", 2.718281828459045)]

/-! ## New cells -/

/-- The variables of a preset in cells from a number on, with their values. -/
def Preset.newCells (cell : Nat) : Preset → List (Variable × Float)
  | empty => []
  | builtin =>
    [(⟨"pi", .constant, cell⟩, 3.141592653589793),
      (⟨"e", .constant, cell + 1⟩, 2.718281828459045)]
  | standard =>
    [(⟨"pi", .constant, cell⟩, 3.141592653589793),
      (⟨"e", .constant, cell + 1⟩, 2.718281828459045),
      (⟨"x", .free, cell + 2⟩, 0.0), (⟨"y", .free, cell + 3⟩, 0.0)]

/-- The variable that is registered, with its value. -/
def Registration.newCell? (cell : Nat) : Registration → Option (Variable × Float)
  | free name => some (⟨name, .free, cell⟩, 0.0)
  | constant name x => some (⟨name, .constant, cell⟩, x)
  | called .. | prefixed .. | infixed .. | suffixed .. => none

/-- The variables that a move brings in unless it is refused, in cells from a number on, with
their values. -/
def Move.newCells (cell : Nat) : Move → List (Variable × Float)
  | .create p => p.newCells cell
  | .edit _ (.register r) => (r.newCell? cell).toList
  | .copy _ | .edit _ (.drop _) => []

namespace Registration

theorem newCell?_of_entry {r : Registration} {cell : Nat} {v : Variable}
    (h : r.entry cell = .var v) : ∃ x, r.newCell? cell = some (v, x) := by
  cases r <;> cases h
  · exact ⟨_, rfl⟩
  · exact ⟨_, rfl⟩

theorem storeAfter_eq_append (r : Registration) (σ : Store) :
    r.storeAfter σ = σ.append ((r.newCell? σ.cells.size).toList.map Prod.snd) := by
  cases r with
  | free name => exact σ.push_eq_append 0.0
  | constant name x => exact σ.push_eq_append x
  | called name arity apply => exact σ.append_nil.symm
  | prefixed name priority apply => exact σ.append_nil.symm
  | infixed name priority apply => exact σ.append_nil.symm
  | suffixed name apply => exact σ.append_nil.symm

end Registration

namespace Preset

theorem make_eq_append (σ : Store) (p : Preset) :
    (p.make σ).2 = σ.append ((p.newCells σ.cells.size).map Prod.snd) := by
  have hsome : ∃ xs, xs.Sublist ((p.newCells σ.cells.size).map Prod.snd) ∧
      (p.make σ).2 = σ.append xs := by
    cases p with
    | empty => exact ⟨[], .slnil, σ.append_nil.symm⟩
    | builtin => exact Vocabulary.builtin_eq_append σ
    | standard =>
      obtain ⟨xs, hxs, hconstants⟩ := Vocabulary.builtin_eq_append σ
      rw [make, Vocabulary.standard]
      -- opaque here, or the unifier would run the registrations
      generalize Vocabulary.builtin σ = q at hconstants ⊢
      obtain ⟨V, τ⟩ := q
      obtain ⟨ys, hys, haxes⟩ := V.addVariables_eq_append τ .free [("x", 0.0), ("y", 0.0)]
      refine ⟨xs ++ ys, hxs.append hys, ?_⟩
      rw [← σ.append_append, ← hconstants]
      exact haxes
  -- none is refused, as there are as many new cells as variables
  obtain ⟨xs, hxs, heq⟩ := hsome
  have hsize : (p.make σ).2.cells.size = σ.cells.size + p.size := (p.make_holds σ).2
  rw [heq, Store.size_append] at hsize
  have hlength : xs.length = ((p.newCells σ.cells.size).map Prod.snd).length := by
    rw [Nat.add_left_cancel hsize]
    cases p <;> rfl
  rw [heq, hxs.eq_of_length hlength]

theorem mem_newCells {p : Preset} {cell : Nat} {v : Variable} (h : .var v ∈ p.entries cell) :
    ∃ x, (v, x) ∈ p.newCells cell := by
  suffices hmem : v ∈ (p.newCells cell).map Prod.fst by
    obtain ⟨⟨_, x⟩, hx, rfl⟩ := List.mem_map.mp hmem
    exact ⟨x, hx⟩
  cases p with
  | empty => cases h
  | builtin => simpa [entries, constants, Entry.inCells, newCells] using h
  | standard => simpa [entries, constants, axes, Entry.inCells, newCells, or_assoc] using h

end Preset

/-- What is found in maps that entries were put in is one of them. -/
theorem Tables.mem_of_lookup_putAll {T : Tables} {entries : List Entry} {table : Table}
    {name : List Char} {entry : Entry} (h : (T.putAll entries table).lookup name = some entry) :
    entry ∈ entries ∨ (T table).lookup name = some entry := by
  induction entries generalizing T with
  | nil => exact Or.inr h
  | cons e entries ih =>
    obtain hlater | hput := ih h
    · exact Or.inl (List.mem_cons_of_mem e hlater)
    · rw [lookup_put] at hput
      split at hput
      · obtain rfl := Option.some.inj hput
        exact Or.inl List.mem_cons_self
      · exact Or.inr hput

theorem Preset.mem_of_find? {p : Preset} {σ : Store} {name : List Char} {v : Variable}
    (h : (p.make σ).1.find? .vars name = some (.var v)) :
    ∃ x, (v, x) ∈ p.newCells σ.cells.size := by
  rw [(p.make_holds σ).1.entry_eq] at h
  obtain hmem | hempty := Tables.mem_of_lookup_putAll h
  · exact mem_newCells hmem
  · cases hempty

namespace Move

/-- The new cells are one behind the other. -/
theorem cells_newCells (m : Move) (cell : Nat) :
    (m.newCells cell).map (·.1.cell) = List.range' cell (m.newCells cell).length := by
  match m with
  | .create p => cases p <;> rfl
  | .copy i => rfl
  | .edit i (.register r) => cases r <;> rfl
  | .edit i (.drop name) => rfl

theorem cell_of_getElem? {m : Move} {cell i : Nat} {v : Variable} {x : Float}
    (h : (m.newCells cell)[i]? = some (v, x)) : v.cell = cell + i := by
  have hlt : i < (m.newCells cell).length := (List.getElem?_eq_some_iff.mp h).1
  have hcell := congrArg (·[i]?) (m.cells_newCells cell)
  rw [List.getElem?_map, h, List.getElem?_range' hlt, Nat.one_mul] at hcell
  exact Option.some.inj hcell

/-- No two of the new variables are in one cell. -/
theorem eq_of_cell_eq {m : Move} {cell : Nat} {v w : Variable} {x y : Float}
    (hv : (v, x) ∈ m.newCells cell) (hw : (w, y) ∈ m.newCells cell) (hcell : v.cell = w.cell) :
    v = w := by
  obtain ⟨i, hi⟩ := List.mem_iff_getElem?.mp hv
  obtain ⟨j, hj⟩ := List.mem_iff_getElem?.mp hw
  have hij : i = j := by
    rw [cell_of_getElem? hi, cell_of_getElem? hj] at hcell
    exact Nat.add_left_cancel hcell
  rw [← hij, hi] at hj
  exact congrArg Prod.fst (Option.some.inj hj)

theorem le_cell {m : Move} {cell : Nat} {v : Variable} {x : Float}
    (h : (v, x) ∈ m.newCells cell) : cell ≤ v.cell := by
  obtain ⟨i, hi⟩ := List.mem_iff_getElem?.mp h
  rw [cell_of_getElem? hi]
  exact Nat.le_add_right _ _

end Move

/-! ## Edits -/

namespace Vocabulary.InOrder

variable {V : Vocabulary} {name : List Char} {v : Variable}

/-- An edit enters what is registered in a place that is free, or drops a variable, or does
nothing. -/
theorem edit_cases (hV : V.InOrder) (σ : Store) (e : Edit) :
    (∃ r, e = .register r ∧ r.GoodFor σ.cells.size V ∧
      (V.edit σ e).1 = .entered (r.entry σ.cells.size) ∧
      V.Gains (r.entry σ.cells.size) (V.edit σ e).2.1 ∧ (V.edit σ e).2.2 = r.storeAfter σ) ∨
    (∃ removed w, V.find? .vars removed = some (.var w) ∧ (V.edit σ e).1 = .dropped w ∧
      V.Loses removed (V.edit σ e).2.1) ∨
    ((V.edit σ e).2.1 = V ∧ (∀ entry, (V.edit σ e).1 ≠ .entered entry) ∧
      ∀ w, (V.edit σ e).1 ≠ .dropped w) := by
  cases e with
  | register r =>
    obtain ⟨hgood, hanswer, hgains, hstore⟩ | ⟨-, error, hedit⟩ := hV.edit_register σ r
    · exact Or.inl ⟨r, rfl, hgood, hanswer, hgains, hstore⟩
    · rw [hedit]
      exact Or.inr (Or.inr ⟨rfl, nofun, nofun⟩)
  | drop removed =>
    obtain ⟨w, hw, hanswer, -, hloses⟩ | ⟨-, hedit⟩ := hV.edit_drop σ removed
    · exact Or.inr (Or.inl ⟨removed.toList, w, hw, hanswer, hloses⟩)
    · rw [hedit]
      exact Or.inr (Or.inr ⟨rfl, nofun, nofun⟩)

/-- A variable that is there after an edit was there before or is the one that was entered. -/
theorem find?_edit (hV : V.InOrder) (σ : Store) (e : Edit)
    (h : (V.edit σ e).2.1.find? .vars name = some (.var v)) :
    V.find? .vars name = some (.var v) ∨ (V.edit σ e).1 = .entered (.var v) := by
  obtain ⟨r, -, -, hanswer, hgains, -⟩ | ⟨removed, w, -, -, hloses⟩ | ⟨hsame, -⟩ :=
    hV.edit_cases σ e
  · rw [hgains] at h
    split at h
    · rw [Option.some.inj h] at hanswer
      exact Or.inr hanswer
    · exact Or.inl h
  · rw [hloses] at h
    split at h
    · cases h
    · exact Or.inl h
  · rw [hsame] at h
    exact Or.inl h

/-- A variable that was there before an edit is still there or is the one that was dropped. -/
theorem find?_of_edit (hV : V.InOrder) (σ : Store) (e : Edit)
    (h : V.find? .vars name = some (.var v)) :
    (V.edit σ e).2.1.find? .vars name = some (.var v) ∨ (V.edit σ e).1 = .dropped v := by
  obtain ⟨r, -, hgood, -, hgains, -⟩ | ⟨removed, w, hw, hanswer, hloses⟩ | ⟨hsame, -⟩ :=
    hV.edit_cases σ e
  · have hplace : ¬(.vars = (r.entry σ.cells.size).table ∧
        name = (r.entry σ.cells.size).name.toList) := by
      rintro ⟨htable, rfl⟩
      rw [htable, hgood.free] at h
      cases h
    refine Or.inl ?_
    rw [hgains, if_neg hplace, h]
  · by_cases hname : name = removed
    · rw [hname, hw] at h
      cases h
      exact Or.inr hanswer
    · have hplace : ¬(Table.vars = .vars ∧ name = removed) := fun hboth => hname hboth.2
      refine Or.inl ?_
      rw [hloses, if_neg hplace, h]
  · rw [hsame]
    exact Or.inl h

/-- The variable that an edit enters was registered, and has its name from then on. -/
theorem of_entered (hV : V.InOrder) {σ : Store} {e : Edit}
    (h : (V.edit σ e).1 = .entered (.var v)) :
    ∃ r, e = .register r ∧ r.entry σ.cells.size = .var v ∧
      (V.edit σ e).2.1.find? .vars v.name.toList = some (.var v) ∧
      (V.edit σ e).2.2 = r.storeAfter σ := by
  obtain ⟨r, he, -, hanswer, hgains, hstore⟩ | ⟨removed, w, -, hanswer, -⟩ | ⟨-, hnone, -⟩ :=
    hV.edit_cases σ e
  · rw [hanswer] at h
    have hentry : r.entry σ.cells.size = .var v := Answer.entered.inj h
    refine ⟨r, he, hentry, ?_, hstore⟩
    rw [hgains, hentry]
    exact if_pos ⟨rfl, rfl⟩
  · rw [hanswer] at h
    cases h
  · exact absurd h (hnone (.var v))

theorem of_dropped (hV : V.InOrder) {σ : Store} {e : Edit} (h : (V.edit σ e).1 = .dropped v) :
    ∃ name, V.find? .vars name = some (.var v) := by
  obtain ⟨r, -, -, hanswer, -⟩ | ⟨removed, w, hw, hanswer, -⟩ | ⟨-, -, hnone⟩ :=
    hV.edit_cases σ e
  · rw [hanswer] at h
    cases h
  · rw [hanswer] at h
    cases h
    exact ⟨removed, hw⟩
  · exact absurd h (hnone v)

end Vocabulary.InOrder

/-! ## Libraries -/

namespace Library

/-- A variable that some vocabulary has a name for. -/
def Has (S : Library) (v : Variable) : Prop :=
  ∃ V ∈ S.items, ∃ name, V.find? .vars name = some (.var v)

/-- All vocabularies have their names in order. -/
def InOrder (S : Library) : Prop := ∀ V ∈ S.items, V.InOrder

/-- A move makes the new cells that go with it, or none. -/
theorem source_move (S : Library) (m : Move) :
    (S.move m).2.source = S.source.append ((m.newCells S.source.cells.size).map Prod.snd) ∨
      (S.move m).2.source = S.source := by
  cases m with
  | create p => exact Or.inl (p.make_eq_append S.source)
  | copy i => exact Or.inr rfl
  | edit i e =>
    cases hi : S.items[i]? with
    | none =>
      rw [move, Shelf.move, hi]
      exact Or.inr rfl
    | some V =>
      rw [move, Shelf.move_edit hi]
      cases e with
      | register r =>
        rw [Vocabulary.edit, Vocabulary.register_eq]
        cases V.accept (r.entry S.source.cells.size) with
        | error e => exact Or.inr rfl
        | ok V' => exact Or.inl (r.storeAfter_eq_append S.source)
      | drop name =>
        rw [Vocabulary.edit]
        cases V.dropVariable? name with
        | none => exact Or.inr rfl
        | some dropped => exact Or.inr rfl

theorem size_move (S : Library) (m : Move) :
    S.source.cells.size ≤ (S.move m).2.source.cells.size := by
  obtain hmade | hnone := S.source_move m
  · rw [hmade, Store.size_append]
    exact Nat.le_add_right _ _
  · rw [hnone]

/-- A move leaves the cells alone that are there. -/
theorem cell_move (S : Library) (m : Move) {cell : Nat} (h : cell < S.source.cells.size) :
    (S.move m).2.source.cells[cell]? = S.source.cells[cell]? := by
  obtain hmade | hnone := S.source_move m
  · rw [hmade, S.source.cell_append _ h]
  · rw [hnone]

/-- A new variable reads its value as soon as its cell is there. -/
theorem read_move {S : Library} {m : Move} {v : Variable} {x : Float}
    (h : (v, x) ∈ m.newCells S.source.cells.size)
    (hcell : v.cell < (S.move m).2.source.cells.size) : (S.move m).2.source.read v = x := by
  obtain hmade | hnone := S.source_move m
  · obtain ⟨i, hi⟩ := List.mem_iff_getElem?.mp h
    have hx : ((m.newCells S.source.cells.size).map Prod.snd)[i]? = some x := by
      rw [List.getElem?_map, hi]
      rfl
    rw [hmade, S.source.read_append hx (Move.cell_of_getElem? hi)]
  · rw [hnone] at hcell
    exact absurd (Move.le_cell h) (Nat.not_le_of_lt hcell)

theorem InOrder.move {S : Library} (hS : S.InOrder) (m : Move) : (S.move m).2.InOrder := by
  have hmake : ∀ σ p, (Preset.make σ p).1.InOrder := by
    intro σ p
    exact (p.make_holds σ).1.inOrder
  have hedit : ∀ (V : Vocabulary) σ e, V.InOrder → (V.edit σ e).2.1.InOrder := by
    intro V σ e hV
    cases e with
    | register r =>
      rw [Vocabulary.edit, Vocabulary.register_eq, Vocabulary.accept]
      cases (r.entry σ.cells.size).refusal? ((V.find? (r.entry σ.cells.size).table
          (r.entry σ.cells.size).name.toList).isSome = true) with
      | some e => exact hV
      | none => exact hV.put (r.entry σ.cells.size)
    | drop name =>
      rw [Vocabulary.edit, Vocabulary.dropVariable?_eq]
      cases V.vars.get? name.toList with
      | none => exact hV
      | some v => exact hV.remove name.toList
  exact Shelf.forall_move hmake hedit hS m

variable {S : Library} {v : Variable}

/-- The library after an edit of a vocabulary that it has. -/
theorem move_edit {i : Nat} {V : Vocabulary} (hi : S.items[i]? = some V) (e : Edit) :
    S.move (.edit i e) = (some (V.edit S.source e).1,
      ⟨S.items.set i (V.edit S.source e).2.1, (V.edit S.source e).2.2⟩) :=
  Shelf.move_edit hi e

theorem move_edit_none {i : Nat} (hi : S.items[i]? = none) (e : Edit) :
    S.move (.edit i e) = (none, S) := by
  rw [move, Shelf.move, hi]

/-- When a move makes its new cells, each of its variables is in one of them. -/
theorem cell_lt_of_made (S : Library) {m : Move} {x : Float}
    (h : (v, x) ∈ m.newCells S.source.cells.size)
    (hmade : (S.move m).2.source =
      S.source.append ((m.newCells S.source.cells.size).map Prod.snd)) :
    v.cell < (S.move m).2.source.cells.size := by
  obtain ⟨i, hi⟩ := List.mem_iff_getElem?.mp h
  have hlt := (List.getElem?_eq_some_iff.mp hi).1
  rw [hmade, Store.size_append, List.length_map, Move.cell_of_getElem? hi]
  exact Nat.add_lt_add_left hlt _

/-- A variable that was entered is there, and is one of the new ones. -/
theorem of_entered (hS : S.InOrder) {m : Move} (h : (S.move m).1 = some (.entered (.var v))) :
    (S.move m).2.Has v ∧ ∃ x, (v, x) ∈ m.newCells S.source.cells.size ∧
      v.cell < (S.move m).2.source.cells.size := by
  cases m with
  | create p => cases h
  | copy i => cases h
  | edit i e =>
    cases hi : S.items[i]? with
    | none =>
      rw [move_edit_none hi] at h
      cases h
    | some V =>
      have hmove := move_edit hi e
      rw [hmove] at h
      have hlt : i < S.items.length := (List.getElem?_eq_some_iff.mp hi).1
      obtain ⟨r, rfl, hentry, hfind, hstore⟩ :=
        (hS V (List.mem_of_getElem? hi)).of_entered (Option.some.inj h)
      obtain ⟨x, hx⟩ := Registration.newCell?_of_entry hentry
      have hmem : (v, x) ∈ (Move.edit i (.register r)).newCells S.source.cells.size :=
        Option.mem_toList.mpr hx
      refine ⟨⟨_, ?_, _, hfind⟩, x, hmem, S.cell_lt_of_made hmem ?_⟩
      · rw [hmove]
        exact List.mem_of_getElem? (List.getElem?_set_self hlt)
      · rw [hmove]
        exact hstore.trans (r.storeAfter_eq_append S.source)

/-- A variable that a library has after a move was there before, or is one of the new ones. -/
theorem Has.of_move (hS : S.InOrder) {m : Move} (h : (S.move m).2.Has v) :
    S.Has v ∨ ∃ x, (v, x) ∈ m.newCells S.source.cells.size ∧
      v.cell < (S.move m).2.source.cells.size := by
  obtain ⟨V, hV, name, hname⟩ := h
  cases m with
  | create p =>
    obtain hV | hV := List.mem_append.mp hV
    · exact Or.inl ⟨V, hV, name, hname⟩
    · obtain rfl := List.mem_singleton.mp hV
      obtain ⟨x, hx⟩ := Preset.mem_of_find? hname
      exact Or.inr ⟨x, hx, S.cell_lt_of_made hx (p.make_eq_append S.source)⟩
  | copy i =>
    obtain hV | hV := List.mem_append.mp hV
    · exact Or.inl ⟨V, hV, name, hname⟩
    · exact Or.inl ⟨V, List.mem_of_getElem? (Option.mem_toList.mp hV), name, hname⟩
  | edit i e =>
    cases hi : S.items[i]? with
    | none =>
      rw [move_edit_none hi] at hV
      exact Or.inl ⟨V, hV, name, hname⟩
    | some W =>
      have hW : W ∈ S.items := List.mem_of_getElem? hi
      have hmove := move_edit hi e
      rw [hmove] at hV
      obtain hV | rfl := List.mem_or_eq_of_mem_set hV
      · exact Or.inl ⟨V, hV, name, hname⟩
      · obtain hold | hanswer := (hS W hW).find?_edit S.source e hname
        · exact Or.inl ⟨W, hW, name, hold⟩
        · have hentered : (S.move (.edit i e)).1 = some (.entered (.var v)) := by
            rw [hmove, hanswer]
          exact Or.inr (of_entered hS hentered).2

/-- A variable that a library has is there after a move, or is the one that was dropped. -/
theorem Has.move (h : S.Has v) (hS : S.InOrder) (m : Move) :
    (S.move m).2.Has v ∨ (S.move m).1 = some (.dropped v) := by
  obtain ⟨V, hV, name, hname⟩ := h
  cases m with
  | create p => exact Or.inl ⟨V, List.mem_append_left _ hV, name, hname⟩
  | copy i => exact Or.inl ⟨V, List.mem_append_left _ hV, name, hname⟩
  | edit i e =>
    cases hi : S.items[i]? with
    | none =>
      rw [move_edit_none hi]
      exact Or.inl ⟨V, hV, name, hname⟩
    | some W =>
      rw [move_edit hi]
      obtain ⟨j, hj⟩ := List.mem_iff_getElem?.mp hV
      by_cases hij : j = i
      · subst hij
        obtain rfl : V = W := Option.some.inj (hj.symm.trans hi)
        have hlt : j < S.items.length := (List.getElem?_eq_some_iff.mp hi).1
        obtain hstill | hdropped := (hS V hV).find?_of_edit S.source e hname
        · exact Or.inl ⟨_, List.mem_of_getElem? (List.getElem?_set_self hlt), name, hstill⟩
        · exact Or.inr (congrArg some hdropped)
      · have hother : (S.items.set i (W.edit S.source e).2.1)[j]? = some V := by
          rw [List.getElem?_set_ne (Ne.symm hij), hj]
        exact Or.inl ⟨V, List.mem_of_getElem? hother, name, hname⟩

theorem has_of_dropped (hS : S.InOrder) {m : Move} (h : (S.move m).1 = some (.dropped v)) :
    S.Has v := by
  cases m with
  | create p => cases h
  | copy i => cases h
  | edit i e =>
    cases hi : S.items[i]? with
    | none =>
      rw [move_edit_none hi] at h
      cases h
    | some V =>
      rw [move_edit hi] at h
      have hV : V ∈ S.items := List.mem_of_getElem? hi
      obtain ⟨name, hname⟩ := (hS V hV).of_dropped (Option.some.inj h)
      exact ⟨V, hV, name, hname⟩

end Library

end ImplicitPlot.Symbols

import ImplicitPlot.Proofs.Session.References

/-
  Cells of a session. Every variable that a session can refer to is in a cell of its store, and no
  two of them share one (`Session.Sound`). A new variable gets a new cell, whatever its name was
  used for before, so this holds after any calls.

  Only setting a free variable and tracing write cells that are there (`cell_step`). A constant is
  in no cell that is ever written (`Sound.spares_constant`), and a program reads the cells of the
  variables that its text named when it was compiled: `programs_are_bound_to_cells` puts this
  together.
-/
namespace ImplicitPlot

open Symbols Expression Contour

/-! ## Writes -/

namespace Symbols

/-- A write changes at most the cell of a variable that is free. -/
theorem Store.cell_set (σ : Store) {v : Variable} {cell : Nat}
    (h : ¬(v.kind = .free ∧ v.cell = cell)) (x : Float) :
    (σ.set v x).cells[cell]? = σ.cells[cell]? := by
  cases hkind : v.kind with
  | constant => rw [Store.set_constant σ hkind]
  | free =>
    have hne : cell ≠ v.cell := by
      intro hcell
      exact h ⟨hkind, hcell.symm⟩
    exact σ.cell_set_of_ne hne x

theorem Vocabulary.Axes.cell_set (axes : Axes) (σ : Store) {cell : Nat}
    (hx : ¬(axes.x.kind = .free ∧ axes.x.cell = cell))
    (hy : ¬(axes.y.kind = .free ∧ axes.y.cell = cell)) (x y : Float) :
    (axes.set σ x y).cells[cell]? = σ.cells[cell]? := by
  rw [Axes.set, Store.cell_set _ hy, Store.cell_set _ hx]

/-- A store reads the same where it has the same cell. -/
theorem Store.read_of_cell_eq {σ τ : Store} {v : Variable}
    (h : τ.cells[v.cell]? = σ.cells[v.cell]?) : τ.read v = σ.read v := by
  rw [read, read, h]

end Symbols

namespace Session

variable {S : Session} {c : Call} {v : Variable}

theorem store_set {n : Nat} (hn : S.handles[n]? = some v) (x : Float) :
    (S.step (.set n x)).store = S.store.set v x := by
  rw [step, hn]
  rfl

theorem store_trace {j : Nat} {t : Tracer} (hj : S.tracers[j]? = some t) (r : Relation)
    (canvas : Canvas) : (S.step (.trace j r canvas)).store = (t.trace S.store r canvas).store := by
  rw [step, hj]
  rfl

/-- Compiling writes no cell. -/
theorem store_compile (S : Session) (i : Nat) (source : Source) :
    (S.step (.compile i source)).store = S.store := rfl

/-- Evaluating writes no cell. -/
theorem store_evaluate (S : Session) (k : Nat) : (S.step (.evaluate k)).store = S.store := by
  rw [step]
  cases S.programs[k]? with
  | none => rfl
  | some p => rfl

/-- No cell is ever taken away. -/
theorem size_step (S : Session) (c : Call) :
    S.store.cells.size ≤ (S.step c).store.cells.size := by
  cases c with
  | move m => exact S.library.size_move m
  | look i name => exact Nat.le_refl _
  | compile i source => exact Nat.le_refl _
  | equip n m resolution => exact Nat.le_refl _
  | evaluate k => exact (congrArg (·.cells.size) (S.store_evaluate k)).ge
  | set n x =>
    cases hn : S.handles[n]? with
    | none =>
      rw [step, hn]
    | some v => rw [store_set hn, Store.size_set]
  | trace j r canvas =>
    cases hj : S.tracers[j]? with
    | none =>
      rw [step, hj]
    | some t => rw [store_trace hj, (t.spares_trace S.store r canvas).size_eq]

/-- A call leaves a cell alone that it does not write. -/
theorem cell_step {cell : Nat} (hcell : cell < S.store.cells.size) (hc : ¬S.Writes cell c) :
    (S.step c).store.cells[cell]? = S.store.cells[cell]? := by
  cases c with
  | move m => exact S.library.cell_move m hcell
  | look i name => rfl
  | compile i source => rfl
  | equip n m resolution => rfl
  | evaluate k => rw [S.store_evaluate k]
  | set n x =>
    cases hn : S.handles[n]? with
    | none =>
      rw [step, hn]
    | some v =>
      have hv : ¬(v.kind = .free ∧ v.cell = cell) := fun h => hc ⟨v, hn, h⟩
      rw [store_set hn, Store.cell_set S.store hv]
  | trace j r canvas =>
    cases hj : S.tracers[j]? with
    | none =>
      rw [step, hj]
    | some t =>
      have hx : ¬(t.axes.x.kind = .free ∧ t.axes.x.cell = cell) := fun h => hc ⟨t, hj, Or.inl h⟩
      have hy : ¬(t.axes.y.kind = .free ∧ t.axes.y.cell = cell) := fun h => hc ⟨t, hj, Or.inr h⟩
      rw [store_trace hj]
      obtain hstore | ⟨row, col, hstore⟩ := t.store_trace S.store r canvas
      · rw [hstore]
      · rw [hstore, t.axes.cell_set S.store hx hy]

/-- Calls leave a cell alone that none of them writes. -/
theorem cell_after {cell : Nat} {calls : List Call} (hcell : cell < S.store.cells.size)
    (hcalls : S.Spares cell calls) :
    (S.after calls).store.cells[cell]? = S.store.cells[cell]? := by
  induction calls generalizing S with
  | nil => rfl
  | cons c calls ih =>
    have hlater := ih (Nat.lt_of_lt_of_le hcell (S.size_step c)) hcalls.2
    exact hlater.trans (cell_step hcell hcalls.1)

/-! ## Variables and their cells -/

/-- Names are in order, and every variable that can be referred to has its own cell. -/
structure Sound (S : Session) : Prop where
  inOrder : S.library.InOrder
  in_store : ∀ {v}, S.Knows v → v.cell < S.store.cells.size
  one_variable : ∀ {v w}, S.Knows v → S.Knows w → v.cell = w.cell → v = w

theorem not_knows_start (v : Variable) : ¬start.Knows v := by
  intro h
  cases h with
  | handle h => cases h
  | name h =>
    obtain ⟨V, hV, -⟩ := h
    cases hV
  | load hp h => cases hp
  | axis haxes h => cases haxes

theorem sound_start : start.Sound where
  inOrder _ hV := by cases hV
  in_store h := absurd h (not_knows_start _)
  one_variable h := absurd h (not_knows_start _)

namespace Sound

/-- The variables that a move brings in are in no cell of a variable from before. -/
theorem cell_ne (hS : S.Sound) {m : Move} {x : Float} {w : Variable}
    (hv : (v, x) ∈ m.newCells S.store.cells.size) (hw : S.Knows w) : w.cell ≠ v.cell :=
  Nat.ne_of_lt (Nat.lt_of_lt_of_le (hS.in_store hw) (Move.le_cell hv))

theorem step (hS : S.Sound) (c : Call) : (S.step c).Sound where
  inOrder := by
    obtain hitems | ⟨m, -, hmove⟩ := (step_adds hS.inOrder c).library
    · rw [Library.InOrder, hitems]
      exact hS.inOrder
    · rw [hmove]
      exact hS.inOrder.move m
  in_store hv := by
    obtain hold | ⟨m, x, -, -, hcell⟩ := hv.of_step hS.inOrder
    · exact Nat.lt_of_lt_of_le (hS.in_store hold) (S.size_step c)
    · exact hcell
  one_variable := by
    intro v w hv hw hcell
    obtain hv | ⟨m, x, hc, hnew, -⟩ := hv.of_step hS.inOrder
    · obtain hw | ⟨m', x', -, hnew', -⟩ := hw.of_step hS.inOrder
      · exact hS.one_variable hv hw hcell
      · exact absurd hcell (hS.cell_ne hnew' hv)
    · obtain hw | ⟨m', x', hc', hnew', -⟩ := hw.of_step hS.inOrder
      · exact absurd hcell.symm (hS.cell_ne hnew hw)
      · obtain rfl : m = m' := Call.move.inj (hc.symm.trans hc')
        exact Move.eq_of_cell_eq hnew hnew' hcell

theorem after (hS : S.Sound) (calls : List Call) : (S.after calls).Sound := by
  induction calls generalizing S with
  | nil => exact hS
  | cons c calls ih => exact ih (hS.step c)

theorem knows_after (hS : S.Sound) (hv : S.Knows v) (calls : List Call) :
    (S.after calls).Knows v := by
  induction calls generalizing S with
  | nil => exact hv
  | cons c calls ih => exact ih (hS.step c) (hv.step hS.inOrder c)

/-- Programs stay where they are. -/
theorem program_after (hS : S.Sound) {k : Nat} {p : Program} (hk : S.programs[k]? = some p)
    (calls : List Call) : (S.after calls).programs[k]? = some p := by
  induction calls generalizing S with
  | nil => exact hk
  | cons c calls ih => exact ih (hS.step c) ((step_adds hS.inOrder c).programs.getElem? hk)

/-! ## Constants -/

/-- What writes to the cell of a constant would write to this constant, and does not. -/
theorem not_writes_constant (hS : S.Sound) (hv : S.Knows v) (hkind : v.kind = .constant)
    (c : Call) : ¬S.Writes v.cell c := by
  have hfree : ∀ w, S.Knows w → ¬(w.kind = .free ∧ w.cell = v.cell) := by
    intro w hw ⟨hwkind, hcell⟩
    rw [hS.one_variable hw hv hcell, hkind] at hwkind
    cases hwkind
  intro hc
  cases c with
  | set n x =>
    obtain ⟨w, hw, h⟩ := hc
    exact hfree w (.handle (List.mem_of_getElem? hw)) h
  | trace j r canvas =>
    obtain ⟨t, ht, h⟩ := hc
    have haxes : t.axes ∈ S.axes := List.mem_map_of_mem (List.mem_of_getElem? ht)
    obtain h | h := h
    · exact hfree t.axes.x (.axis haxes (Or.inl rfl)) h
    · exact hfree t.axes.y (.axis haxes (Or.inr rfl)) h
  | move m => exact hc
  | look i name => exact hc
  | compile i source => exact hc
  | evaluate k => exact hc
  | equip n m resolution => exact hc

theorem spares_constant (hS : S.Sound) (hv : S.Knows v) (hkind : v.kind = .constant)
    (calls : List Call) : S.Spares v.cell calls := by
  induction calls generalizing S with
  | nil => trivial
  | cons c calls ih =>
    exact ⟨hS.not_writes_constant hv hkind c, ih (hS.step c) (hv.step hS.inOrder c)⟩

/-- A constant keeps its value. -/
theorem read_constant (hS : S.Sound) (hv : S.Knows v) (hkind : v.kind = .constant)
    (calls : List Call) : (S.after calls).store.read v = S.store.read v :=
  Store.read_of_cell_eq (cell_after (hS.in_store hv) (hS.spares_constant hv hkind calls))

/-! ## Free variables and new ones -/

/-- A cell holds what its variable was last set to, whoever reads it. -/
theorem read_set_after (hS : S.Sound) {n : Nat} (hn : S.handles[n]? = some v)
    (hkind : v.kind = .free) (x : Float) {calls : List Call}
    (hcalls : (S.step (.set n x)).Spares v.cell calls) {w : Variable} (hw : w.cell = v.cell) :
    ((S.step (.set n x)).after calls).store.read w = x := by
  have hcell : v.cell < S.store.cells.size := hS.in_store (.handle (List.mem_of_getElem? hn))
  have hkept := cell_after (Nat.lt_of_lt_of_le hcell (S.size_step (.set n x))) hcalls
  have hread : (S.store.set v x).read v = x := S.store.read_set_self hkind hcell x
  rw [Store.read, hw, hkept, store_set hn]
  exact hread

/-- A variable that is new after a move has a cell that no other variable had, and there the value
that it was registered with. -/
theorem of_knows_move (hS : S.Sound) {m : Move} (hv : (S.step (.move m)).Knows v) :
    S.Knows v ∨ (∀ w, S.Knows w → w.cell ≠ v.cell) ∧
      ∃ x, (v, x) ∈ m.newCells S.store.cells.size ∧ (S.step (.move m)).store.read v = x := by
  obtain hold | ⟨m', x, hm, hnew, hcell⟩ := hv.of_step hS.inOrder
  · exact Or.inl hold
  · cases hm
    exact Or.inr ⟨fun w hw => hS.cell_ne hnew hw, x, hnew, Library.read_move hnew hcell⟩

/-- The answer to a registration is a variable that the session can refer to, and could not
before. -/
theorem of_entered (hS : S.Sound) {m : Move}
    (h : (S.library.move m).1 = some (.entered (.var v))) :
    (S.step (.move m)).Knows v ∧ ¬S.Knows v := by
  obtain ⟨hhas, x, hnew, -⟩ := Library.of_entered hS.inOrder h
  exact ⟨.name hhas, fun hv => hS.cell_ne hnew hv rfl⟩

/-! ## Traces -/

/-- A trace is not seen in a variable that is not one of its axes. -/
theorem read_trace (hS : S.Sound) {j : Nat} {t : Tracer} (hj : S.tracers[j]? = some t)
    (hv : S.Knows v) (hx : v ≠ t.axes.x) (hy : v ≠ t.axes.y) (r : Relation) (canvas : Canvas) :
    (S.step (.trace j r canvas)).store.read v = S.store.read v := by
  have haxes : t.axes ∈ S.axes := List.mem_map_of_mem (List.mem_of_getElem? hj)
  refine Store.read_of_cell_eq (cell_step (hS.in_store hv) ?_)
  intro ⟨t', ht', hwrites⟩
  obtain rfl : t = t' := Option.some.inj (hj.symm.trans ht')
  obtain ⟨-, hcell⟩ | ⟨-, hcell⟩ := hwrites
  · exact hx (hS.one_variable hv (.axis haxes (Or.inl rfl)) hcell.symm)
  · exact hy (hS.one_variable hv (.axis haxes (Or.inr rfl)) hcell.symm)

end Sound

/-! ## The main theorem -/

/-- Programs are bound to cells, not names. After any calls, a text that compiles gives a program
that stays at its number and loads the variables that the tokens of the text named when it was
compiled, one after the other. Whatever calls come later, its value on any machine is that of the
program with the values that these variables have by then in their places, which depends on
nothing else.

Every variable that a session can refer to has a cell for itself, and a session can refer to it
for ever. One that is registered gets a cell that no variable had, and starts there with its
value. A constant keeps it, and refuses to be set; a cell that was set through any handle holds
what it was set to until it is written again. Only setting and tracing write cells: compiling and
evaluating write none, and a trace leaves its axes at a point of its lattice and all other
variables as they were. -/
theorem programs_are_bound_to_cells (before later : List Call) :
    let S := start.after before
    (∀ i source p, S.program? i source = some p →
      let T := (S.step (.compile i source)).after later
      ∃ V, S.library.items[i]? = some V ∧ T.programs[S.programs.length]? = some p ∧
        loads p.code = (source.tokens V).map Prod.snd ∧
        (∀ name v, (name, v) ∈ source.tokens V → V.find? .vars name = some (.var v)) ∧
        ∀ machine : Machine, (machine.evaluate T.store p).1 =
          (p.fill ((source.tokens V).map fun (_, v) => T.store.read v)).value .empty) ∧
    (∀ v, S.Knows v → v.cell < S.store.cells.size ∧ (∀ w, S.Knows w → v.cell = w.cell → v = w) ∧
      (S.after later).Knows v ∧
      (v.kind = .constant → (S.after later).store.read v = S.store.read v ∧
        ∀ x, S.store.write v x = (false, S.store))) ∧
    (∀ m v, (S.step (.move m)).Knows v → S.Knows v ∨ (∀ w, S.Knows w → w.cell ≠ v.cell) ∧
      ∃ x, (v, x) ∈ m.newCells S.store.cells.size ∧ (S.step (.move m)).store.read v = x) ∧
    (∀ m v, (S.library.move m).1 = some (.entered (.var v)) →
      (S.step (.move m)).Knows v ∧ ¬S.Knows v) ∧
    (∀ n v x, S.handles[n]? = some v → v.kind = .free →
      (S.store.write v x).1 = true ∧ ((S.step (.set n x)).Spares v.cell later →
        ∀ w, w.cell = v.cell → ((S.step (.set n x)).after later).store.read w = x)) ∧
    (∀ c cell, cell < S.store.cells.size → ¬S.Writes cell c →
      (S.step c).store.cells[cell]? = S.store.cells[cell]?) ∧
    (∀ i source, (S.step (.compile i source)).store = S.store) ∧
    (∀ k, (S.step (.evaluate k)).store = S.store) ∧
    ∀ j t r canvas, S.tracers[j]? = some t →
      let T := S.step (.trace j r canvas)
      (T.store = S.store ∨ ∃ row col, T.store = t.axes.set S.store
        ((t.job r canvas).pointAt row col).x ((t.job r canvas).pointAt row col).y) ∧
      ∀ v, S.Knows v → v ≠ t.axes.x → v ≠ t.axes.y → T.store.read v = S.store.read v := by
  intro S
  have hS : S.Sound := sound_start.after before
  refine ⟨?_, ?_, ?_, ?_, ?_, ?_, S.store_compile, S.store_evaluate, ?_⟩
  · intro i source p hp T
    obtain ⟨V, hV, hprogram⟩ := Option.bind_eq_some_iff.mp hp
    have hloads := Source.loads_of_program? hprogram
    have hpushed : (S.step (.compile i source)).programs[S.programs.length]? = some p := by
      show (S.programs ++ (S.program? i source).toList)[S.programs.length]? = some p
      rw [hp]
      exact List.getElem?_concat_length
    refine ⟨V, hV, (hS.step (.compile i source)).program_after hpushed later, hloads, ?_, ?_⟩
    · intro name v htoken
      exact Source.find?_of_mem_tokens htoken
    · intro machine
      rw [machine.evaluate_eq_fill, hloads, List.map_map]
      rfl
  · intro v hv
    refine ⟨hS.in_store hv, fun w hw => hS.one_variable hv hw, hS.knows_after hv later, ?_⟩
    intro hkind
    refine ⟨hS.read_constant hv hkind later, ?_⟩
    intro x
    rw [Store.write, hkind, S.store.set_constant hkind]
    rfl
  · intro m v hv
    exact hS.of_knows_move hv
  · intro m v h
    exact hS.of_entered h
  · intro n v x hn hkind
    refine ⟨?_, ?_⟩
    · rw [Store.write, hkind]
      rfl
    · intro hcalls w hw
      exact hS.read_set_after hn hkind x hcalls hw
  · intro c cell hcell hc
    exact cell_step hcell hc
  · intro j t r canvas hj T
    refine ⟨?_, ?_⟩
    · show (S.step (.trace j r canvas)).store = S.store ∨ _
      rw [store_trace hj]
      exact t.store_trace S.store r canvas
    · intro v hv hx hy
      exact hS.read_trace hj hv hx hy r canvas

end Session

end ImplicitPlot

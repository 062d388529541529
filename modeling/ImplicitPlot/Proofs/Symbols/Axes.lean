import ImplicitPlot.Symbols.Vocabulary

/-
  Stores seen through a pair of axes. Setting the axes changes their two cells and nothing else
  (`Axes.Spares`), and what it writes there does not depend on what was there: two stores that
  agree elsewhere cannot be told apart once both axes are set (`AgreeElsewhere.read_set`). An axis
  that is a constant is never written, so its value counts as one of the others.
-/
namespace ImplicitPlot.Symbols

/-- What a variable reads after a write through a handle that has a cell. -/
theorem Store.read_set (σ : Store) {v : Variable} (hcell : v.cell < σ.cells.size) (x : Float)
    (w : Variable) :
    (σ.set v x).read w = if v.kind = .free ∧ v.cell = w.cell then x else σ.read w := by
  cases hk : v.kind with
  | constant =>
    rw [set_constant σ hk, if_neg (fun h => by cases h.1)]
  | free =>
    by_cases hw : v.cell = w.cell
    · have hread : (σ.set v x).read w = (σ.set v x).read v := by
        unfold read
        rw [hw]
      rw [if_pos ⟨rfl, hw⟩, hread, read_set_self σ hk hcell]
    · rw [if_neg (fun h => hw h.2), read_set_of_ne σ hw]

theorem Store.cell_set_of_ne (σ : Store) {v : Variable} {i : Nat} (h : i ≠ v.cell) (x : Float) :
    (σ.set v x).cells[i]? = σ.cells[i]? := by
  unfold set
  split
  · exact Array.getElem?_setIfInBounds_ne (Ne.symm h)
  · rfl

namespace Vocabulary.Axes

/-- A variable whose value changes when the axes are set. -/
def Moves (axes : Axes) (v : Variable) : Prop :=
  (axes.x.kind = .free ∧ axes.x.cell = v.cell) ∨ (axes.y.kind = .free ∧ axes.y.cell = v.cell)

/-- Two stores that hold both axes and agree on all variables that the axes do not move. -/
structure AgreeElsewhere (axes : Axes) (σ τ : Store) : Prop where
  x_lt : axes.x.cell < σ.cells.size ∧ axes.x.cell < τ.cells.size
  y_lt : axes.y.cell < σ.cells.size ∧ axes.y.cell < τ.cells.size
  read_eq : ∀ v, ¬axes.Moves v → σ.read v = τ.read v

/-- One store came of another with no cell made and none changed but those of the axes. -/
structure Spares (axes : Axes) (σ τ : Store) : Prop where
  size_eq : τ.cells.size = σ.cells.size
  cell_eq : ∀ i, i ≠ axes.x.cell → i ≠ axes.y.cell → τ.cells[i]? = σ.cells[i]?

variable {axes : Axes} {σ τ : Store}

theorem Spares.refl (axes : Axes) (σ : Store) : axes.Spares σ σ := ⟨rfl, fun _ _ _ => rfl⟩

theorem Spares.set (h : axes.Spares σ τ) (x y : Float) : axes.Spares σ (axes.set τ x y) where
  size_eq := by
    unfold Axes.set
    rw [Store.size_set, Store.size_set, h.size_eq]
  cell_eq i hx hy := by
    unfold Axes.set
    rw [Store.cell_set_of_ne _ hy, Store.cell_set_of_ne _ hx, h.cell_eq i hx hy]

theorem Spares.trans {υ : Store} (h : axes.Spares σ τ) (h' : axes.Spares τ υ) :
    axes.Spares σ υ where
  size_eq := h'.size_eq.trans h.size_eq
  cell_eq i hx hy := (h'.cell_eq i hx hy).trans (h.cell_eq i hx hy)

/-- What a variable reads after both axes were set, the second one last. -/
theorem read_set (hx : axes.x.cell < σ.cells.size) (hy : axes.y.cell < σ.cells.size)
    (x y : Float) (v : Variable) :
    (axes.set σ x y).read v =
      if axes.y.kind = .free ∧ axes.y.cell = v.cell then y
      else if axes.x.kind = .free ∧ axes.x.cell = v.cell then x
      else σ.read v := by
  unfold Axes.set
  rw [Store.read_set _ (by rw [Store.size_set]; exact hy), Store.read_set σ hx]

/-- A store that holds both axes, which can be set. -/
structure Settable (axes : Axes) (σ : Store) : Prop where
  x_free : axes.x.kind = .free
  y_free : axes.y.kind = .free
  x_lt : axes.x.cell < σ.cells.size
  y_lt : axes.y.cell < σ.cells.size

theorem AgreeElsewhere.read_set (h : axes.AgreeElsewhere σ τ) (x y : Float) (v : Variable) :
    (axes.set σ x y).read v = (axes.set τ x y).read v := by
  rw [Axes.read_set h.x_lt.1 h.y_lt.1, Axes.read_set h.x_lt.2 h.y_lt.2]
  split
  · rfl
  · rename_i hny
    split
    · rfl
    · rename_i hnx
      exact h.read_eq v fun hmoves => hmoves.elim hnx hny

end Vocabulary.Axes

end ImplicitPlot.Symbols

import ImplicitPlot.Proofs.Contour.Field

/-
  Frames in the middle of a trace of a field. Every point of the lattice holds the mark or the
  value of the field, some points are known to hold their value, and what was drawn is known
  (`Traced`). A sample makes one more point known, whatever the store held before, because it
  sets both axes; a point that does not hold the mark is known without one. The mark itself may
  be a value of the field: such a point is sampled again and gets the same value.
-/
namespace ImplicitPlot

open Symbols Expression

/-! ## Axes -/

/-- Setting both axes leaves nothing of what they were set to before. -/
theorem Symbols.Vocabulary.Axes.set_set (axes : Vocabulary.Axes) (σ : Store) (x y x' y' : Float) :
    axes.set (axes.set σ x y) x' y' = axes.set σ x' y' := by
  unfold Vocabulary.Axes.set Store.set
  cases axes.x.kind <;> cases axes.y.kind <;> simp only [Array.setIfInBounds_setIfInBounds]
  by_cases h : axes.x.cell = axes.y.cell
  · rw [h]
    simp only [Array.setIfInBounds_setIfInBounds]
  · rw [Array.setIfInBounds_comm y x' (Ne.symm h)]
    simp only [Array.setIfInBounds_setIfInBounds]

namespace Contour

/-! ## Lattices -/

namespace Lattice

theorem index_lt {rows cols row col : Nat} (hrow : row < rows) (hcol : col < cols) :
    row * cols + col < rows * cols := by
  have hle : (row + 1) * cols ≤ rows * cols := Nat.mul_le_mul_right cols hrow
  rw [Nat.succ_mul] at hle
  omega

theorem index_inj {cols row col row' col' : Nat} (hcol : col < cols) (hcol' : col' < cols)
    (h : row * cols + col = row' * cols + col') : row = row' ∧ col = col' := by
  have hpos : 0 < cols := by omega
  have hdiv := congrArg (· / cols) h
  have hmod := congrArg (· % cols) h
  simp only [Nat.mul_comm _ cols, Nat.mul_add_div hpos, Nat.mul_add_mod, Nat.div_eq_of_lt hcol,
    Nat.div_eq_of_lt hcol', Nat.mod_eq_of_lt hcol, Nat.mod_eq_of_lt hcol', Nat.add_zero]
    at hdiv hmod
  exact ⟨hdiv, hmod⟩

theorem get_set_self {l : Lattice} {row col : Nat} (h : row * l.cols + col < l.values.size)
    (x : Float) : (l.set row col x).get row col = x := by
  unfold get set
  rw [Array.getElem?_setIfInBounds_self_of_lt h]
  rfl

theorem get_set_of_ne {l : Lattice} {row col row' col' : Nat}
    (h : row * l.cols + col ≠ row' * l.cols + col') (x : Float) :
    (l.set row col x).get row' col' = l.get row' col' := by
  unfold get set
  rw [Array.getElem?_setIfInBounds_ne h]

theorem get_blank (rows cols row col : Nat) : (blank rows cols).get row col = unsampled := by
  unfold get blank
  rw [Array.getElem?_replicate]
  split <;> rfl

/-- The mark does not count as a value, although a value can equal it. -/
theorem isSampled_of_mark {l : Lattice} {row col : Nat} (h : l.get row col = unsampled) :
    l.isSampled row col = false := by
  have hmark : (unsampled != unsampled) = false := by decide
  rw [isSampled, h, hmark]

end Lattice

/-! ## Frames -/

/-- A frame in the middle of a trace of the field `f` from the store `σ` over a lattice of some
rows and columns, in which some points are known to hold their value. -/
structure Traced (j : Job) (σ : Store) (f : Nat → Nat → Float) (rows cols : Nat)
    (known : Nat × Nat → Prop) (drawn : List Segment) (F : Frame) : Prop where
  axes : ∀ x y, j.axes.set F.store x y = j.axes.set σ x y
  cols_eq : F.lattice.cols = cols
  size_eq : F.lattice.values.size = rows * cols
  mark_or_value : ∀ row < rows, ∀ col < cols,
    F.lattice.get row col = unsampled ∨ F.lattice.get row col = f row col
  value : ∀ row < rows, ∀ col < cols, known (row, col) → F.lattice.get row col = f row col
  drawn_eq : F.drawn = drawn.toArray
  count_eq : F.tally.segments = drawn.length

namespace Traced

variable {j : Job} {σ : Store} {f : Nat → Nat → Float} {rows cols : Nat}
  {known known' : Nat × Nat → Prop} {drawn : List Segment} {F : Frame}

theorem mono (h : Traced j σ f rows cols known drawn F) (hknown : ∀ p, known' p → known p) :
    Traced j σ f rows cols known' drawn F :=
  { h with value := fun row hrow col hcol hk => h.value row hrow col hcol (hknown _ hk) }

theorem countRefined (h : Traced j σ f rows cols known drawn F) :
    Traced j σ f rows cols known drawn (Job.countRefined F) :=
  ⟨h.axes, h.cols_eq, h.size_eq, h.mark_or_value, h.value, h.drawn_eq, h.count_eq⟩

/-- A blank lattice, nothing known and nothing drawn. -/
theorem blank (j : Job) (σ : Store) (f : Nat → Nat → Float) (rows cols : Nat)
    (machine : Expression.Machine) :
    Traced j σ f rows cols (fun _ => False) []
      ⟨σ, machine, Lattice.blank rows cols, .zero, #[]⟩ where
  axes _ _ := rfl
  cols_eq := rfl
  size_eq := Array.size_replicate
  mark_or_value row _ col _ := Or.inl (Lattice.get_blank rows cols row col)
  value _ _ _ _ h := h.elim
  drawn_eq := rfl
  count_eq := rfl

/-- One more point is known after its value was entered. -/
theorem enter (h : Traced j σ f rows cols known drawn F) {row col : Nat} (hrow : row < rows)
    (hcol : col < cols) :
    Traced j σ f rows cols (fun p => p = (row, col) ∨ known p) drawn
      (j.enter row col (f row col) F) := by
  have hself : (F.lattice.set row col (f row col)).get row col = f row col := by
    refine Lattice.get_set_self ?_ _
    rw [h.cols_eq, h.size_eq]
    exact Lattice.index_lt hrow hcol
  have hother : ∀ row' < rows, ∀ col' < cols, (row', col') ≠ (row, col) →
      (F.lattice.set row col (f row col)).get row' col' = F.lattice.get row' col' := by
    intro row' _ col' hcol' hne
    refine Lattice.get_set_of_ne (fun heq => hne ?_) _
    rw [h.cols_eq] at heq
    obtain ⟨rfl, rfl⟩ := Lattice.index_inj hcol hcol' heq
    rfl
  refine ⟨fun x y => ?_, h.cols_eq, ?_, fun row' hrow' col' hcol' => ?_,
    fun row' hrow' col' hcol' hknown => ?_, h.drawn_eq, h.count_eq⟩
  · show j.axes.set (j.axes.set F.store _ _) x y = _
    rw [Vocabulary.Axes.set_set, h.axes]
  · show (F.lattice.values.setIfInBounds _ _).size = _
    rw [Array.size_setIfInBounds, h.size_eq]
  · by_cases hp : (row', col') = (row, col)
    · cases hp
      exact Or.inr hself
    · show (F.lattice.set row col (f row col)).get row' col' = unsampled ∨
        (F.lattice.set row col (f row col)).get row' col' = f row' col'
      rw [hother row' hrow' col' hcol' hp]
      exact h.mark_or_value row' hrow' col' hcol'
  · by_cases hp : (row', col') = (row, col)
    · cases hp
      exact hself
    · exact (hother row' hrow' col' hcol' hp).trans
        (h.value row' hrow' col' hcol' (hknown.resolve_left hp))

/-- A point that does not hold the mark is known. -/
theorem of_isSampled (h : Traced j σ f rows cols known drawn F) {row col : Nat} (hrow : row < rows)
    (hcol : col < cols) (hsampled : F.lattice.isSampled row col = true) :
    Traced j σ f rows cols (fun p => p = (row, col) ∨ known p) drawn F := by
  refine { h with value := fun row' hrow' col' hcol' hknown => ?_ }
  rcases hknown with hp | hknown
  · cases hp
    refine (h.mark_or_value row hrow col hcol).resolve_left fun hmark => ?_
    rw [Lattice.isSampled_of_mark hmark] at hsampled
    cases hsampled
  · exact h.value row' hrow' col' hcol' hknown

/-- Corners that are known are those of the field. -/
theorem corners (h : Traced j σ f rows cols known drawn F) {row col size : Nat}
    (hrow : row + size < rows) (hcol : col + size < cols) (htopLeft : known (row, col))
    (htopRight : known (row, col + size)) (hbottomLeft : known (row + size, col))
    (hbottomRight : known (row + size, col + size)) :
    F.lattice.corners row col size = Corners.ofField f row col size := by
  unfold Lattice.corners Corners.ofField
  rw [h.value row (by omega) col (by omega) htopLeft,
    h.value row (by omega) (col + size) hcol htopRight,
    h.value (row + size) hrow col (by omega) hbottomLeft,
    h.value (row + size) hrow (col + size) hcol hbottomRight]

/-- A march draws the segments of the field's cell if its corners are known. -/
theorem draw (h : Traced j σ f rows cols known drawn F) {row col : Nat}
    (hcorners : F.lattice.corners row col 1 = Corners.ofField f row col 1) :
    Traced j σ f rows cols known (drawn ++ cellSegments f j.pixelStep row col)
      (j.draw row col F) := by
  have hfine : j.fineSegments F.lattice row col = cellSegments f j.pixelStep row col := by
    unfold Job.fineSegments cellSegments
    rw [hcorners]
  refine ⟨h.axes, h.cols_eq, h.size_eq, h.mark_or_value, h.value, ?_, ?_⟩
  · show F.drawn ++ j.fineSegments F.lattice row col = _
    rw [hfine, h.drawn_eq, List.toArray_appendList]
  · show F.tally.segments + (j.fineSegments F.lattice row col).length = _
    rw [hfine, h.count_eq, List.length_append]

end Traced

end Contour

end ImplicitPlot

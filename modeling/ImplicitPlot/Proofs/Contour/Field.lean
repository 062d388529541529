import ImplicitPlot.Proofs.Contour.RowMajor

/-
  The contour of a field, a value at every point of a lattice that is there from the start. A
  coarse cell whose corners are finite and differ in sign is refined: its fine cells are marched
  one after the other. No value is looked up, kept or marked, so this says which segments a trace
  has to draw and in which order (`fieldSegments`). At refinement one every cell is marched
  (`fieldSegments_one`).
-/
namespace ImplicitPlot.Contour

namespace Corners

/-- The corners of the cell of `size` points from a point to the right and down. -/
def ofField (f : Nat → Nat → Float) (row col size : Nat) : Corners :=
  ⟨f row col, f row (col + size), f (row + size) col, f (row + size) (col + size)⟩

/-- The signs of the four corners. -/
def signs (c : Corners) : List Bool :=
  [c.topLeft, c.topRight, c.bottomLeft, c.bottomRight].map isPositive

/-- All corners are finite, and some of them are positive but not all. -/
def signsDiffer (c : Corners) : Bool := c.allFinite && c.signs.any id && !c.signs.all id

theorem isCrossed_eq_signsDiffer (c : Corners) : c.isCrossed = c.signsDiffer := by
  unfold isCrossed signsDiffer
  rw [Bool.and_assoc, Bool.and_assoc]
  congr 1
  simp only [pattern, signs, List.map_cons, List.map_nil]
  cases isPositive c.topLeft <;> cases isPositive c.topRight <;>
    cases isPositive c.bottomLeft <;> cases isPositive c.bottomRight <;> rfl

theorem segments_of_not_finite {c : Corners} (h : c.allFinite = false) (o : Pixel) (step : Int) :
    c.segments o step = [] := by
  rw [segments, h]
  rfl

/-- Where all corners agree there is nothing to draw. -/
theorem segments_of_signsDiffer_eq_false {c : Corners} (h : c.signsDiffer = false) (o : Pixel)
    (step : Int) : c.segments o step = [] := by
  cases hfinite : c.allFinite with
  | false => exact segments_of_not_finite hfinite o step
  | true =>
    rw [← isCrossed_eq_signsDiffer, isCrossed, hfinite, Bool.true_and] at h
    have hpattern : c.pattern = 0 ∨ c.pattern = 15 := by
      simp only [Bool.and_eq_false_iff, bne_eq_false_iff_eq] at h
      exact h
    unfold segments
    rw [hfinite]
    rcases hpattern with hp | hp <;> rw [hp] <;> rfl

end Corners

/-! ## What is to be drawn -/

/-- The coarse cells of a lattice in row-major order: their upper left points are multiples of
the refinement in both directions, and they lie inside the lattice as a whole. -/
def coarseCells (r rows cols : Nat) : List (Nat × Nat) :=
  ((List.range rows).product (List.range cols)).filter fun (row, col) =>
    r ∣ row ∧ r ∣ col ∧ row + r < rows ∧ col + r < cols

/-- The fine cells of a coarse cell in row-major order. -/
def fineCells (r row col : Nat) : List (Nat × Nat) :=
  (List.range' row r).product (List.range' col r)

/-- The segments in one fine cell of some pixels. -/
def cellSegments (f : Nat → Nat → Float) (step : Int) (row col : Nat) : List Segment :=
  (Corners.ofField f row col 1).segments ⟨col * step, row * step⟩ step

/-- The segments in the fine cells of a coarse cell. -/
def blockSegments (f : Nat → Nat → Float) (r : Nat) (step : Int) (row col : Nat) : List Segment :=
  (fineCells r row col).flatMap fun (fineRow, fineCol) => cellSegments f step fineRow fineCol

/-- The segments in all coarse cells that are crossed. -/
def fieldSegments (f : Nat → Nat → Float) (r : Nat) (step : Int) (rows cols : Nat) :
    List Segment :=
  ((coarseCells r rows cols).filter fun (row, col) =>
    (Corners.ofField f row col r).signsDiffer).flatMap fun (row, col) =>
      blockSegments f r step row col

/-- Marching squares: the segments in all cells of a lattice. -/
def marchingSquares (f : Nat → Nat → Float) (step : Int) (rows cols : Nat) : List Segment :=
  ((List.range (rows - 1)).product (List.range (cols - 1))).flatMap fun (row, col) =>
    cellSegments f step row col

/-- Only where there are coarse cells does the step matter. -/
theorem fieldSegments_congr {f : Nat → Nat → Float} {r rows cols : Nat} {step step' : Int}
    (h : ∀ row col, (row, col) ∈ coarseCells r rows cols → step = step') :
    fieldSegments f r step rows cols = fieldSegments f r step' rows cols := by
  unfold fieldSegments
  refine List.flatMap_congr fun p hp => ?_
  rw [h p.1 p.2 (List.mem_of_mem_filter hp)]

/-! ## The loops of a trace -/

theorem mem_coarseCells {r rows cols row col : Nat} :
    (row, col) ∈ coarseCells r rows cols ↔
      r ∣ row ∧ r ∣ col ∧ row + r < rows ∧ col + r < cols := by
  unfold coarseCells
  rw [List.mem_filter, List.pair_mem_product, List.mem_range, List.mem_range, decide_eq_true_eq]
  constructor
  · exact fun h => h.2
  · exact fun h => ⟨⟨by omega, by omega⟩, h⟩

theorem rowMajor_coarseCells (r rows cols : Nat) : RowMajor (coarseCells r rows cols) :=
  (rowMajor_product List.pairwise_lt_range List.pairwise_lt_range).filter _

/-- Two loops over multiples go through the coarse cells. -/
theorem product_multiples_eq_coarseCells {r : Nat} (hr : 0 < r) (rows cols : Nat) :
    (multiples r (rows - r)).product (multiples r (cols - r)) = coarseCells r rows cols := by
  refine eq_of_rowMajor (rowMajor_product (pairwise_multiples hr _) (pairwise_multiples hr _))
    (rowMajor_coarseCells r rows cols) fun row col => ?_
  rw [List.pair_mem_product, mem_multiples hr, mem_multiples hr, mem_coarseCells]
  constructor
  · rintro ⟨⟨hrow, hlt⟩, hcol, hlt'⟩
    exact ⟨hrow, hcol, by omega, by omega⟩
  · rintro ⟨hrow, hcol, hlt, hlt'⟩
    exact ⟨⟨hrow, by omega⟩, hcol, by omega⟩

/-! ## Refinement one -/

theorem coarseCells_one (rows cols : Nat) :
    coarseCells 1 rows cols = (List.range (rows - 1)).product (List.range (cols - 1)) := by
  refine eq_of_rowMajor (rowMajor_coarseCells 1 rows cols)
    (rowMajor_product List.pairwise_lt_range List.pairwise_lt_range) fun row col => ?_
  rw [mem_coarseCells, List.pair_mem_product, List.mem_range, List.mem_range]
  constructor
  · rintro ⟨-, -, hrow, hcol⟩
    exact ⟨by omega, by omega⟩
  · rintro ⟨hrow, hcol⟩
    exact ⟨Nat.one_dvd row, Nat.one_dvd col, by omega, by omega⟩

theorem blockSegments_one (f : Nat → Nat → Float) (step : Int) (row col : Nat) :
    blockSegments f 1 step row col = cellSegments f step row col := by
  show cellSegments f step row col ++ [] = _
  rw [List.append_nil]

/-- Where a cell that is not crossed has no segments, it need not be left out. -/
theorem flatMap_filter {α β : Type} {p : α → Bool} {g : α → List β}
    (h : ∀ a, p a = false → g a = []) (l : List α) : (l.filter p).flatMap g = l.flatMap g := by
  induction l with
  | nil => rfl
  | cons a l ih =>
    rw [List.flatMap_cons, List.filter_cons]
    cases hp : p a with
    | true => rw [if_pos rfl, List.flatMap_cons, ih]
    | false => rw [if_neg Bool.false_ne_true, ih, h a hp, List.nil_append]

theorem fieldSegments_one (f : Nat → Nat → Float) (step : Int) (rows cols : Nat) :
    fieldSegments f 1 step rows cols = marchingSquares f step rows cols := by
  unfold fieldSegments marchingSquares
  rw [coarseCells_one]
  simp only [blockSegments_one]
  exact flatMap_filter (fun p hp => Corners.segments_of_signsDiffer_eq_false hp _ _) _

end ImplicitPlot.Contour

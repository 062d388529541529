import ImplicitPlot.Proofs.Contour.Sampled

/-
  A trace draws the contour of the field that its program has over the lattice. The passes keep
  what is known of a frame (`Traced`): the coarse pass makes all coarse points known, and no pass
  forgets them. In a coarse cell that is crossed, each visit makes one more fine point known; by
  the time a fine cell is marched, three of its corners were visited before the fourth, so the
  march reads the field (`visit_traced`).

  `Job.Reads` lists the corners that a trace ever looks at, with the frame that they are read
  from. All of them are the field's (`Job.corners_of_reads`), so the mark of a point without a
  value never shows.
-/
namespace ImplicitPlot.Contour

open Symbols Expression

/-! ## The passes as loops over points -/

/-- The points of a coarse cell in the order of their visits. -/
def blockPoints (r row col : Nat) : List (Nat × Nat) :=
  (List.range' row (r + 1)).product (List.range' col (r + 1))

/-- The points of the coarse lattice. -/
def coarsePoints (r rows cols : Nat) : List (Nat × Nat) :=
  (multiples r rows).product (multiples r cols)

theorem rowMajor_blockPoints (r row col : Nat) : RowMajor (blockPoints r row col) :=
  rowMajor_product List.pairwise_lt_range' List.pairwise_lt_range'

theorem mem_blockPoints {r row col fineRow fineCol : Nat} :
    (fineRow, fineCol) ∈ blockPoints r row col ↔
      (row ≤ fineRow ∧ fineRow ≤ row + r) ∧ col ≤ fineCol ∧ fineCol ≤ col + r := by
  unfold blockPoints
  rw [List.pair_mem_product, List.mem_range'_1, List.mem_range'_1]
  omega

theorem mem_coarsePoints {r rows cols row col : Nat} (hr : 0 < r) :
    (row, col) ∈ coarsePoints r rows cols ↔ (r ∣ row ∧ row < rows) ∧ r ∣ col ∧ col < cols := by
  unfold coarsePoints
  rw [List.pair_mem_product, mem_multiples hr, mem_multiples hr]

namespace Job

/-- The visits to some points of a coarse cell. -/
def visits (j : Job) (row col : Nat) (points : List (Nat × Nat)) : Pass :=
  points.forM fun p => j.visit row col p.1 p.2

/-- The coarse pass, and then the inspection of some coarse cells. -/
def inspections (j : Job) (rows cols : Nat) (cells : List (Nat × Nat)) : Pass := do
  j.coarse rows cols
  cells.forM fun p => j.inspect p.1 p.2

theorem coarse_eq (j : Job) (rows cols : Nat) :
    j.coarse rows cols =
      (coarsePoints j.resolution.refinement rows cols).forM fun p => j.sample p.1 p.2 :=
  forM_product _ _ _

theorem refine_eq (j : Job) (row col : Nat) :
    j.refine row col = j.visits row col (blockPoints j.resolution.refinement row col) :=
  forM_product _ _ _

theorem run_eq {j : Job} (hr : 0 < j.resolution.refinement) (rows cols : Nat) :
    j.run rows cols = j.inspections rows cols (coarseCells j.resolution.refinement rows cols) := by
  unfold run inspections contour
  rw [← product_multiples_eq_coarseCells hr]
  exact congrArg (fun x => j.coarse rows cols >>= fun _ => x) (forM_product _ _ _)

/-! ## What a trace reads -/

/-- The corners that a trace from a frame looks at, with the place and the size of their cell:
those of every coarse cell when it is inspected, and, if it is crossed, those of each of its fine
cells right after the last of the four was visited. -/
inductive Reads (j : Job) (rows cols : Nat) (F₀ : Frame) : Corners → Nat → Nat → Nat → Prop where
  | coarse {before after : List (Nat × Nat)} {row col : Nat} {F : Frame}
      (hsplit : coarseCells j.resolution.refinement rows cols = before ++ (row, col) :: after)
      (hrun : j.inspections rows cols before F₀ = .ok () F) :
      Reads j rows cols F₀ (F.lattice.corners row col j.resolution.refinement) row col
        j.resolution.refinement
  | fine {before after before' after' : List (Nat × Nat)} {row col fineRow fineCol : Nat}
      {F F' : Frame}
      (hsplit : coarseCells j.resolution.refinement rows cols = before ++ (row, col) :: after)
      (hrun : j.inspections rows cols before F₀ = .ok () F)
      (hcrossed : (F.lattice.corners row col j.resolution.refinement).isCrossed = true)
      (hsplit' : blockPoints j.resolution.refinement row col =
        before' ++ (fineRow + 1, fineCol + 1) :: after')
      (hrow : fineRow + 1 ≠ row) (hcol : fineCol + 1 ≠ col)
      (hrun' : (j.visits row col before' >>= fun _ => j.sampleOnce (fineRow + 1) (fineCol + 1))
        (countRefined F) = .ok () F') :
      Reads j rows cols F₀ (F'.lattice.corners fineRow fineCol 1) fineRow fineCol 1

/-! ## Passes over a field -/

/-- The program of a job has the field `f` over the points of the lattice. -/
def HasField (j : Job) (σ : Store) (f : Nat → Nat → Float) : Prop :=
  ∀ row col, j.program.value (j.axes.set σ (j.pointAt row col).x (j.pointAt row col).y) =
    .ok (f row col)

variable {j : Job} {σ : Store} {f : Nat → Nat → Float} {rows cols : Nat}

theorem sample_traced (hf : j.HasField σ f) {known : Nat × Nat → Prop} {drawn : List Segment}
    {row col : Nat} (hrow : row < rows) (hcol : col < cols) :
    (j.sample row col).Ensures (Traced j σ f rows cols known drawn)
      (Traced j σ f rows cols (fun p => p = (row, col) ∨ known p) drawn) := by
  refine sample_ensures fun F hF => ⟨f row col, ?_, hF.enter hrow hcol⟩
  rw [hF.axes]
  exact hf row col

theorem sampleOnce_traced (hf : j.HasField σ f) {known : Nat × Nat → Prop} {drawn : List Segment}
    {row col : Nat} (hrow : row < rows) (hcol : col < cols) :
    (j.sampleOnce row col).Ensures (Traced j σ f rows cols known drawn)
      (Traced j σ f rows cols (fun p => p = (row, col) ∨ known p) drawn) :=
  sampleOnce_ensures (fun _ hF hs => hF.of_isSampled hrow hcol hs) (sample_traced hf hrow hcol)

/-- After the coarse pass all coarse points are known. -/
theorem coarse_traced (hf : j.HasField σ f) (hr : 0 < j.resolution.refinement) :
    (j.coarse rows cols).Ensures (Traced j σ f rows cols (fun _ => False) [])
      (Traced j σ f rows cols (· ∈ coarsePoints j.resolution.refinement rows cols) []) := by
  rw [coarse_eq]
  have hloop : Pass.Ensures
      ((coarsePoints j.resolution.refinement rows cols).forM fun p => j.sample p.1 p.2)
      (Traced j σ f rows cols (· ∈ []) [])
      (Traced j σ f rows cols (· ∈ coarsePoints j.resolution.refinement rows cols) []) := by
    refine Pass.ensures_forM (I := fun done => Traced j σ f rows cols (· ∈ done) []) _ ?_
    intro done p rest hsplit F hF
    have hmem : p ∈ coarsePoints j.resolution.refinement rows cols :=
      mem_of_split hsplit
    obtain ⟨⟨-, hrow⟩, -, hcol⟩ := (mem_coarsePoints hr).mp hmem
    obtain ⟨F', hrun, hF'⟩ := sample_traced hf hrow hcol F hF
    refine ⟨F', hrun, hF'.mono fun q hq => ?_⟩
    rcases List.mem_append.mp hq with hq | hq
    · exact Or.inr hq
    · exact Or.inl (List.mem_singleton.mp hq)
  exact fun F hF => hloop F (hF.mono fun _ hq => by cases hq)

/-! ## One coarse cell -/

/-- The segments that were drawn after the visits to some points of a coarse cell: those of the
fine cells that end at one of them. -/
def drawnInBlock (f : Nat → Nat → Float) (step : Int) (row col : Nat) (points : List (Nat × Nat)) :
    List Segment :=
  (points.filter fun p => p.1 ≠ row ∧ p.2 ≠ col).flatMap fun p =>
    cellSegments f step (p.1 - 1) (p.2 - 1)

theorem drawnInBlock_concat (f : Nat → Nat → Float) (step : Int) (row col : Nat)
    (points : List (Nat × Nat)) (p : Nat × Nat) :
    drawnInBlock f step row col (points ++ [p]) = drawnInBlock f step row col points ++
      if p.1 = row ∨ p.2 = col then [] else cellSegments f step (p.1 - 1) (p.2 - 1) := by
  unfold drawnInBlock
  rw [List.filter_append, List.flatMap_append, List.filter_singleton]
  by_cases h : p.1 = row ∨ p.2 = col
  · have hnot : ¬(p.1 ≠ row ∧ p.2 ≠ col) := by omega
    rw [if_pos h, decide_eq_false hnot]
    rfl
  · have hinner : p.1 ≠ row ∧ p.2 ≠ col := by omega
    rw [if_neg h, decide_eq_true hinner]
    show _ ++ (cellSegments f step (p.1 - 1) (p.2 - 1) ++ []) = _
    rw [List.append_nil]

/-- The fine cells that end at the points of a coarse cell are all its fine cells. -/
theorem drawnInBlock_blockPoints (f : Nat → Nat → Float) (r : Nat) (step : Int) (row col : Nat) :
    drawnInBlock f step row col (blockPoints r row col) = blockSegments f r step row col := by
  have hpoints : (blockPoints r row col).filter (fun p => p.1 ≠ row ∧ p.2 ≠ col) =
      (fineCells r row col).map fun p => (p.1 + 1, p.2 + 1) := by
    refine eq_of_rowMajor ((rowMajor_blockPoints r row col).filter _) ?_ fun fineRow fineCol => ?_
    · unfold RowMajor fineCells
      rw [List.pairwise_map]
      refine (rowMajor_product List.pairwise_lt_range' List.pairwise_lt_range').imp fun h => ?_
      unfold Before at *
      omega
    · rw [List.mem_filter, mem_blockPoints, decide_eq_true_eq, List.mem_map]
      constructor
      · rintro ⟨⟨hrow, hcol⟩, hne, hne'⟩
        refine ⟨(fineRow - 1, fineCol - 1), ?_, ?_⟩
        · unfold fineCells
          rw [List.pair_mem_product, List.mem_range'_1, List.mem_range'_1]
          omega
        · rw [Prod.mk.injEq]
          dsimp only
          omega
      · rintro ⟨⟨i, k⟩, hmem, hp⟩
        unfold fineCells at hmem
        rw [List.pair_mem_product, List.mem_range'_1, List.mem_range'_1] at hmem
        cases hp
        omega
  unfold drawnInBlock blockSegments
  rw [hpoints, List.flatMap_map]
  rfl

section Block

variable {row col : Nat} (hcell : (row, col) ∈ coarseCells j.resolution.refinement rows cols)

/-- What is known within a coarse cell after the visits to some of its points. -/
def Within (j : Job) (σ : Store) (f : Nat → Nat → Float) (rows cols row col : Nat)
    (base : List Segment) (points : List (Nat × Nat)) : Frame → Prop :=
  Traced j σ f rows cols
    (fun p => p ∈ points ∨ p ∈ coarsePoints j.resolution.refinement rows cols)
    (base ++ drawnInBlock f j.pixelStep row col points)

theorem within_nil {base : List Segment} {F : Frame}
    (hF : Traced j σ f rows cols (· ∈ coarsePoints j.resolution.refinement rows cols) base F) :
    Within j σ f rows cols row col base [] F := by
  unfold Within
  rw [show drawnInBlock f j.pixelStep row col [] = [] from rfl, List.append_nil]
  exact hF.mono fun p hp => hp.resolve_left List.not_mem_nil

include hcell in
/-- By the time the last corner of a fine cell was visited, all of them are known. -/
theorem corners_within {before after : List (Nat × Nat)} {fineRow fineCol : Nat}
    (hsplit : blockPoints j.resolution.refinement row col =
      before ++ (fineRow + 1, fineCol + 1) :: after)
    (hrow : fineRow + 1 ≠ row) (hcol : fineCol + 1 ≠ col) {known : Nat × Nat → Prop}
    (hknown : ∀ p, p = (fineRow + 1, fineCol + 1) ∨ p ∈ before → known p)
    {drawn : List Segment} {F : Frame} (hF : Traced j σ f rows cols known drawn F) :
    F.lattice.corners fineRow fineCol 1 = Corners.ofField f fineRow fineCol 1 := by
  obtain ⟨-, -, hrows, hcols⟩ := mem_coarseCells.mp hcell
  have hlast : (fineRow + 1, fineCol + 1) ∈ blockPoints j.resolution.refinement row col :=
    mem_of_split hsplit
  rw [mem_blockPoints] at hlast
  have hvisited : ∀ p, p ∈ blockPoints j.resolution.refinement row col →
      Before p (fineRow + 1, fineCol + 1) → known p := fun p hp hbefore =>
    hknown p (Or.inr (mem_of_before (rowMajor_blockPoints _ row col) hsplit hp hbefore))
  have htopLeft : known (fineRow, fineCol) :=
    hvisited _ (mem_blockPoints.mpr (by omega)) (Or.inl (Nat.lt_succ_self _))
  have htopRight : known (fineRow, fineCol + 1) :=
    hvisited _ (mem_blockPoints.mpr (by omega)) (Or.inl (Nat.lt_succ_self _))
  have hbottomLeft : known (fineRow + 1, fineCol) :=
    hvisited _ (mem_blockPoints.mpr (by omega)) (Or.inr ⟨rfl, Nat.lt_succ_self _⟩)
  exact hF.corners (by omega) (by omega) htopLeft htopRight hbottomLeft (hknown _ (Or.inl rfl))

variable (hf : j.HasField σ f) (base : List Segment)

include hcell hf

theorem sampleOnce_within {before after : List (Nat × Nat)} {p : Nat × Nat}
    (hsplit : blockPoints j.resolution.refinement row col = before ++ p :: after) :
    (j.sampleOnce p.1 p.2).Ensures (Within j σ f rows cols row col base before)
      (Traced j σ f rows cols
        (fun q => q = p ∨ q ∈ before ∨ q ∈ coarsePoints j.resolution.refinement rows cols)
        (base ++ drawnInBlock f j.pixelStep row col before)) := by
  obtain ⟨-, -, hrows, hcols⟩ := mem_coarseCells.mp hcell
  have hp : p ∈ blockPoints j.resolution.refinement row col :=
    mem_of_split hsplit
  obtain ⟨hrow, hcol⟩ := mem_blockPoints.mp hp
  exact sampleOnce_traced hf (by omega) (by omega)

theorem visit_within {before after : List (Nat × Nat)} {p : Nat × Nat}
    (hsplit : blockPoints j.resolution.refinement row col = before ++ p :: after) :
    (j.visit row col p.1 p.2).Ensures (Within j σ f rows cols row col base before)
      (Within j σ f rows cols row col base (before ++ [p])) := by
  have hp : p ∈ blockPoints j.resolution.refinement row col :=
    mem_of_split hsplit
  have hknown : ∀ q, q ∈ before ++ [p] ∨ q ∈ coarsePoints j.resolution.refinement rows cols →
      q = p ∨ q ∈ before ∨ q ∈ coarsePoints j.resolution.refinement rows cols := by
    rintro q (hq | hq)
    · rcases List.mem_append.mp hq with hq | hq
      · exact Or.inr (Or.inl hq)
      · exact Or.inl (List.mem_singleton.mp hq)
    · exact Or.inr (Or.inr hq)
  rw [visit_eq]
  refine (sampleOnce_within hcell hf base hsplit).seq (closeCell_ensures ?_ ?_)
  · intro hborder F hF
    unfold Within
    rw [drawnInBlock_concat, if_pos hborder, List.append_nil]
    exact hF.mono hknown
  · intro hinner F hF
    unfold Within
    rw [drawnInBlock_concat, if_neg hinner, ← List.append_assoc]
    obtain ⟨⟨fineRow, hfineRow⟩, fineCol, hfineCol⟩ :
        (∃ i, p.1 = i + 1) ∧ ∃ k, p.2 = k + 1 := by
      rw [mem_blockPoints] at hp
      exact ⟨⟨p.1 - 1, by omega⟩, p.2 - 1, by omega⟩
    obtain rfl : p = (fineRow + 1, fineCol + 1) := Prod.ext hfineRow hfineCol
    refine (hF.draw ?_).mono hknown
    refine corners_within hcell hsplit (by omega) (by omega) (fun q hq => ?_) hF
    exact hq.imp_right Or.inl

theorem visits_within {before after : List (Nat × Nat)}
    (hsplit : blockPoints j.resolution.refinement row col = before ++ after) :
    (j.visits row col before).Ensures (Within j σ f rows cols row col base [])
      (Within j σ f rows cols row col base before) := by
  refine Pass.ensures_forM _ fun done p rest hdone => ?_
  have hsplit' : blockPoints j.resolution.refinement row col = done ++ p :: (rest ++ after) := by
    rw [hsplit, hdone, List.append_assoc]
    rfl
  exact visit_within hcell hf base hsplit'

/-- A coarse cell that is refined gets the segments of the field's fine cells. -/
theorem refine_traced :
    (j.refine row col).Ensures
      (Traced j σ f rows cols (· ∈ coarsePoints j.resolution.refinement rows cols) base)
      (Traced j σ f rows cols (· ∈ coarsePoints j.resolution.refinement rows cols)
        (base ++ blockSegments f j.resolution.refinement j.pixelStep row col)) := by
  rw [refine_eq]
  intro F hF
  obtain ⟨F', hrun, hF'⟩ :=
    visits_within hcell hf base (List.append_nil _).symm F (within_nil hF)
  unfold Within at hF'
  rw [drawnInBlock_blockPoints] at hF'
  exact ⟨F', hrun, hF'.mono fun p hp => Or.inr hp⟩

end Block

/-! ## All coarse cells -/

/-- The segments that were drawn after the inspection of some coarse cells. -/
def drawnInCells (f : Nat → Nat → Float) (r : Nat) (step : Int) (cells : List (Nat × Nat)) :
    List Segment :=
  (cells.filter fun p => (Corners.ofField f p.1 p.2 r).signsDiffer).flatMap fun p =>
    blockSegments f r step p.1 p.2

theorem drawnInCells_concat (f : Nat → Nat → Float) (r : Nat) (step : Int)
    (cells : List (Nat × Nat)) (p : Nat × Nat) :
    drawnInCells f r step (cells ++ [p]) = drawnInCells f r step cells ++
      if (Corners.ofField f p.1 p.2 r).signsDiffer = true then blockSegments f r step p.1 p.2
      else [] := by
  unfold drawnInCells
  rw [List.filter_append, List.flatMap_append, List.filter_singleton]
  cases (Corners.ofField f p.1 p.2 r).signsDiffer with
  | true =>
    rw [if_pos rfl]
    show _ ++ (blockSegments f r step p.1 p.2 ++ []) = _
    rw [List.append_nil]
  | false => rfl

/-- Between two inspections all coarse points are known. -/
def Between (j : Job) (σ : Store) (f : Nat → Nat → Float) (rows cols : Nat)
    (cells : List (Nat × Nat)) : Frame → Prop :=
  Traced j σ f rows cols (· ∈ coarsePoints j.resolution.refinement rows cols)
    (drawnInCells f j.resolution.refinement j.pixelStep cells)

theorem corners_between (hr : 0 < j.resolution.refinement) {row col : Nat}
    {cells : List (Nat × Nat)} (hcell : (row, col) ∈ coarseCells j.resolution.refinement rows cols)
    {F : Frame} (hF : Between j σ f rows cols cells F) :
    F.lattice.corners row col j.resolution.refinement =
      Corners.ofField f row col j.resolution.refinement := by
  obtain ⟨hrow, hcol, hrows, hcols⟩ := mem_coarseCells.mp hcell
  have hrow' := Nat.dvd_add hrow (Nat.dvd_refl j.resolution.refinement)
  have hcol' := Nat.dvd_add hcol (Nat.dvd_refl j.resolution.refinement)
  exact Traced.corners hF hrows hcols
    ((mem_coarsePoints hr).mpr ⟨⟨hrow, by omega⟩, hcol, by omega⟩)
    ((mem_coarsePoints hr).mpr ⟨⟨hrow, by omega⟩, hcol', hcols⟩)
    ((mem_coarsePoints hr).mpr ⟨⟨hrow', hrows⟩, hcol, by omega⟩)
    ((mem_coarsePoints hr).mpr ⟨⟨hrow', hrows⟩, hcol', hcols⟩)

section Cells

variable (hf : j.HasField σ f) (hr : 0 < j.resolution.refinement)

include hf hr

theorem inspect_between {before : List (Nat × Nat)} {p : Nat × Nat}
    (hcell : p ∈ coarseCells j.resolution.refinement rows cols) :
    (j.inspect p.1 p.2).Ensures (Between j σ f rows cols before)
      (Between j σ f rows cols (before ++ [p])) := by
  refine inspect_ensures ?_ ?_
  · rintro F ⟨F₀, hF₀, rfl, hcrossed⟩
    rw [corners_between hr hcell hF₀, Corners.isCrossed_eq_signsDiffer] at hcrossed
    unfold Between
    rw [drawnInCells_concat, if_pos hcrossed]
    exact refine_traced hcell hf _ _ hF₀.countRefined
  · intro F hF hcrossed
    rw [corners_between hr hcell hF, Corners.isCrossed_eq_signsDiffer] at hcrossed
    unfold Between
    rw [drawnInCells_concat, hcrossed, if_neg Bool.false_ne_true, List.append_nil]
    exact hF

/-- The inspections of the first coarse cells draw the segments of the field in them. -/
theorem inspections_traced {before after : List (Nat × Nat)}
    (hsplit : coarseCells j.resolution.refinement rows cols = before ++ after) :
    (j.inspections rows cols before).Ensures (Traced j σ f rows cols (fun _ => False) [])
      (Between j σ f rows cols before) := by
  have hloop : Pass.Ensures (before.forM fun p => j.inspect p.1 p.2)
      (Between j σ f rows cols []) (Between j σ f rows cols before) := by
    refine Pass.ensures_forM _ fun done p rest hdone => inspect_between hf hr ?_
    rw [hsplit]
    exact List.mem_append_left after (mem_of_split hdone)
  exact (coarse_traced hf hr).seq hloop

/-- A trace draws the segments of the field. -/
theorem run_traced :
    (j.run rows cols).Ensures (Traced j σ f rows cols (fun _ => False) [])
      (Between j σ f rows cols (coarseCells j.resolution.refinement rows cols)) := by
  rw [run_eq hr]
  exact inspections_traced hf hr (List.append_nil _).symm

/-- All corners that a trace looks at are those of the field. -/
theorem corners_of_reads {F₀ : Frame} (hF₀ : Traced j σ f rows cols (fun _ => False) [] F₀)
    {c : Corners} {row col size : Nat} (h : j.Reads rows cols F₀ c row col size) :
    c = Corners.ofField f row col size := by
  have hcoarse : ∀ {before after row col F},
      coarseCells j.resolution.refinement rows cols = before ++ (row, col) :: after →
      j.inspections rows cols before F₀ = .ok () F →
      (row, col) ∈ coarseCells j.resolution.refinement rows cols ∧
        Between j σ f rows cols before F := by
    intro before after row col F hsplit hrun
    obtain ⟨F₁, hrun₁, hF₁⟩ := inspections_traced hf hr hsplit F₀ hF₀
    rw [hrun] at hrun₁
    cases hrun₁
    exact ⟨mem_of_split hsplit, hF₁⟩
  cases h with
  | coarse hsplit hrun =>
    obtain ⟨hcell, hF⟩ := hcoarse hsplit hrun
    exact corners_between hr hcell hF
  | fine hsplit hrun hcrossed hsplit' hrow hcol hrun' =>
    obtain ⟨hcell, hF⟩ := hcoarse hsplit hrun
    obtain ⟨F₁, hrun₁, hF₁⟩ := ((visits_within hcell hf _ hsplit').seq
      (sampleOnce_within hcell hf _ hsplit')) _ (within_nil hF.countRefined)
    rw [hrun'] at hrun₁
    cases hrun₁
    exact corners_within hcell hsplit' hrow hcol (fun q hq => hq.imp_right Or.inl) hF₁

end Cells

end Job

end ImplicitPlot.Contour

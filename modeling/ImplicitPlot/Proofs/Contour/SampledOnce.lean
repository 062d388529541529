import ImplicitPlot.Proofs.Contour.Direct
import ImplicitPlot.Proofs.Contour.Journal
import Mathlib.Data.Finset.Card
import Mathlib.Data.Finset.Union
import Mathlib.Data.List.Perm.Lattice

/-
  The points that a trace samples, and how often. As long as no value of the field equals the mark
  of a point without a value, the lattice tells which points were sampled, so no point is sampled
  twice: blocks of neighbouring cells share their borders, and all blocks share points with the
  coarse lattice. The account of a trace (`Account`) ties its journal to its frame: the lattice
  holds the values of the points that were evaluated and marks elsewhere, and the tally counts
  them. After a trace these are the points of the coarse lattice and of the blocks of the cells
  that are crossed, each counted once (`sampledPoints`).
-/
namespace ImplicitPlot.Contour

open Symbols Expression

/-! ## Counting the points with a value -/

namespace Lattice

end Lattice

/-! ## What is to be sampled -/

/-- The coarse cells among some that the contour of a field crosses. -/
def crossedCells (f : Nat → Nat → Float) (r : Nat) (cells : List (Nat × Nat)) :
    List (Nat × Nat) :=
  cells.filter fun c => (Corners.ofField f c.1 c.2 r).signsDiffer

/-- The points of the coarse lattice and of the blocks of all coarse cells that are crossed. -/
def sampledPoints (f : Nat → Nat → Float) (r rows cols : Nat) : Finset (Nat × Nat) :=
  (coarsePoints r rows cols).toFinset ∪
    (crossedCells f r (coarseCells r rows cols)).toFinset.biUnion fun c =>
      (blockPoints r c.1 c.2).toFinset

theorem rowMajor_coarsePoints {r : Nat} (hr : 0 < r) (rows cols : Nat) :
    RowMajor (coarsePoints r rows cols) :=
  rowMajor_product (pairwise_multiples hr rows) (pairwise_multiples hr cols)

theorem crossedCells_concat (f : Nat → Nat → Float) (r : Nat) (cells : List (Nat × Nat))
    (c : Nat × Nat) :
    crossedCells f r (cells ++ [c]) = crossedCells f r cells ++
      if (Corners.ofField f c.1 c.2 r).signsDiffer = true then [c] else [] := by
  unfold crossedCells
  rw [List.filter_append, List.filter_singleton]
  cases (Corners.ofField f c.1 c.2 r).signsDiffer <;> rfl

/-- A point is sampled by the time some coarse cells were inspected. -/
def SampledBy (f : Nat → Nat → Float) (r rows cols : Nat) (cells : List (Nat × Nat))
    (p : Nat × Nat) : Prop :=
  p ∈ coarsePoints r rows cols ∨ ∃ c ∈ crossedCells f r cells, p ∈ blockPoints r c.1 c.2

theorem mem_sampledPoints {f : Nat → Nat → Float} {r rows cols : Nat} {p : Nat × Nat} :
    p ∈ sampledPoints f r rows cols ↔ SampledBy f r rows cols (coarseCells r rows cols) p := by
  simp only [sampledPoints, SampledBy, Finset.mem_union, List.mem_toFinset, Finset.mem_biUnion]

theorem sampledPoints_inside {f : Nat → Nat → Float} {r rows cols : Nat} (hr : 0 < r) :
    ∀ p ∈ sampledPoints f r rows cols, p.1 < rows ∧ p.2 < cols := by
  intro p hp
  obtain hp | ⟨c, hc, hp⟩ := mem_sampledPoints.mp hp
  · obtain ⟨⟨-, hrow⟩, -, hcol⟩ := (mem_coarsePoints hr).mp hp
    exact ⟨hrow, hcol⟩
  · obtain ⟨-, -, hlast, hlast'⟩ := mem_coarseCells.mp (List.mem_of_mem_filter hc)
    obtain ⟨hrow, hcol⟩ := mem_blockPoints.mp hp
    exact ⟨by omega, by omega⟩

/-- The corners of a coarse cell are coarse points. -/
theorem cornerPoints_coarse {r rows cols : Nat} (hr : 0 < r) {c : Nat × Nat}
    (hcell : c ∈ coarseCells r rows cols) :
    ∀ p ∈ cornerPoints c.1 c.2 r, p ∈ coarsePoints r rows cols := by
  obtain ⟨hrow, hcol, hlast, hlast'⟩ := mem_coarseCells.mp hcell
  have hrow' := Nat.dvd_add hrow (Nat.dvd_refl r)
  have hcol' := Nat.dvd_add hcol (Nat.dvd_refl r)
  intro p hp
  simp only [cornerPoints, List.mem_cons, List.not_mem_nil, or_false] at hp
  rcases hp with rfl | rfl | rfl | rfl
  · exact (mem_coarsePoints hr).mpr ⟨⟨hrow, by omega⟩, hcol, by omega⟩
  · exact (mem_coarsePoints hr).mpr ⟨⟨hrow, by omega⟩, hcol', hlast'⟩
  · exact (mem_coarsePoints hr).mpr ⟨⟨hrow', hlast⟩, hcol, by omega⟩
  · exact (mem_coarsePoints hr).mpr ⟨⟨hrow', hlast⟩, hcol', hlast'⟩

/-! ## Accounts -/

/-- A frame and a journal in the middle of a trace of the field `f` from the store `σ`: the lattice
holds the field's values at the points that were evaluated and marks elsewhere, no point was
evaluated twice, and the tally counts them and the cells that were refined. -/
structure Account (j : Job) (σ : Store) (f : Nat → Nat → Float) (rows cols refined : Nat)
    (s : Frame × Journal) : Prop where
  axes : ∀ x y, j.axes.set s.1.store x y = j.axes.set σ x y
  cols_eq : s.1.lattice.cols = cols
  size_eq : s.1.lattice.values.size = rows * cols
  inside : ∀ p ∈ s.2.evaluated, p.1 < rows ∧ p.2 < cols
  get_eq : ∀ row < rows, ∀ col < cols,
    s.1.lattice.get row col = if (row, col) ∈ s.2.evaluated then f row col else unsampled
  nodup : s.2.evaluated.Nodup
  evaluations_eq : s.1.tally.evaluations = s.2.evaluated.length
  refined_eq : s.1.tally.refinedCells = refined

namespace Account

variable {j : Job} {σ : Store} {f : Nat → Nat → Float} {rows cols refined : Nat} {F : Frame}
  {l : Journal}

theorem start (j : Job) (σ : Store) (f : Nat → Nat → Float) (rows cols : Nat)
    (machine : Expression.Machine) :
    Account j σ f rows cols 0 (⟨σ, machine, Lattice.blank rows cols, .zero, #[]⟩, .empty) where
  axes _ _ := rfl
  cols_eq := rfl
  size_eq := Array.size_replicate
  inside _ hp := by cases hp
  get_eq row _ col _ := Lattice.get_blank rows cols row col
  nodup := List.nodup_nil
  evaluations_eq := rfl
  refined_eq := rfl

/-- Looking values up and inspecting cells leaves the account as it is. -/
theorem journal (h : Account j σ f rows cols refined (F, l)) {l' : Journal}
    (hl' : l'.evaluated = l.evaluated) : Account j σ f rows cols refined (F, l') := by
  refine ⟨h.axes, h.cols_eq, h.size_eq, ?_, ?_, ?_, ?_, h.refined_eq⟩
  · exact hl' ▸ h.inside
  · exact hl' ▸ h.get_eq
  · exact hl' ▸ h.nodup
  · exact hl' ▸ h.evaluations_eq

theorem draw (h : Account j σ f rows cols refined (F, l)) (row col : Nat) :
    Account j σ f rows cols refined (j.draw row col F, l) :=
  ⟨h.axes, h.cols_eq, h.size_eq, h.inside, h.get_eq, h.nodup, h.evaluations_eq, h.refined_eq⟩

theorem countRefined (h : Account j σ f rows cols refined (F, l)) :
    Account j σ f rows cols (refined + 1) (Job.countRefined F, l) :=
  ⟨h.axes, h.cols_eq, h.size_eq, h.inside, h.get_eq, h.nodup, h.evaluations_eq,
    congrArg (· + 1) h.refined_eq⟩

/-- One more point is evaluated. -/
theorem enter (h : Account j σ f rows cols refined (F, l)) {row col : Nat} (hrow : row < rows)
    (hcol : col < cols) (hnew : (row, col) ∉ l.evaluated) :
    Account j σ f rows cols refined (j.enter row col (f row col) F, l.evaluate (row, col)) := by
  have hmem : ∀ p, p ∈ (l.evaluate (row, col)).evaluated ↔ p ∈ l.evaluated ∨ p = (row, col) := by
    intro p
    rw [Journal.evaluate, List.mem_append, List.mem_singleton]
  refine ⟨fun x y => ?_, h.cols_eq, ?_, fun p hp => ?_, fun row' hrow' col' hcol' => ?_, ?_, ?_,
    h.refined_eq⟩
  · show j.axes.set (j.axes.set F.store _ _) x y = _
    rw [Vocabulary.Axes.set_set, h.axes]
  · show (F.lattice.values.setIfInBounds _ _).size = _
    rw [Array.size_setIfInBounds]
    exact h.size_eq
  · rcases (hmem p).mp hp with hp | rfl
    · exact h.inside p hp
    · exact ⟨hrow, hcol⟩
  · show (F.lattice.set row col (f row col)).get row' col' = _
    have hcols : F.lattice.cols = cols := h.cols_eq
    by_cases hp : (row', col') = (row, col)
    · cases hp
      rw [if_pos ((hmem _).mpr (Or.inr rfl)), Lattice.get_set_self]
      rw [hcols, show F.lattice.values.size = rows * cols from h.size_eq]
      exact Lattice.index_lt hrow hcol
    · have hplace : row * F.lattice.cols + col ≠ row' * F.lattice.cols + col' := by
        intro heq
        rw [hcols] at heq
        obtain ⟨rfl, rfl⟩ := Lattice.index_inj hcol hcol' heq
        exact hp rfl
      rw [Lattice.get_set_of_ne hplace]
      simp only [hmem, hp, or_false]
      exact h.get_eq row' hrow' col' hcol'
  · exact List.nodup_append.mpr ⟨h.nodup, List.nodup_singleton _, fun p hp q hq heq =>
      hnew (List.mem_singleton.mp hq ▸ heq ▸ hp)⟩
  · show F.tally.evaluations + 1 = (l.evaluated ++ [(row, col)]).length
    rw [List.length_append]
    exact congrArg (· + 1) h.evaluations_eq

/-- If the value of a point is not the mark, the point counts as sampled once it was evaluated. -/
theorem isSampled_iff (h : Account j σ f rows cols refined (F, l)) {row col : Nat}
    (hrow : row < rows) (hcol : col < cols)
    (hmark : (row, col) ∈ l.evaluated → (f row col == unsampled) = false) :
    F.lattice.isSampled row col = true ↔ (row, col) ∈ l.evaluated := by
  have hget : F.lattice.get row col = if (row, col) ∈ l.evaluated then f row col else unsampled :=
    h.get_eq row hrow col hcol
  by_cases hp : (row, col) ∈ l.evaluated
  · rw [if_pos hp] at hget
    rw [Lattice.isSampled, hget]
    exact iff_of_true (by rw [bne, hmark hp]; rfl) hp
  · rw [if_neg hp] at hget
    rw [Lattice.isSampled_of_mark hget]
    exact iff_of_false Bool.false_ne_true hp

/-- Corners that were evaluated are those of the field. -/
theorem corners (h : Account j σ f rows cols refined (F, l)) {row col size : Nat}
    (hrow : row + size < rows) (hcol : col + size < cols)
    (hpoints : ∀ p ∈ cornerPoints row col size, p ∈ l.evaluated) :
    F.lattice.corners row col size = Corners.ofField f row col size := by
  have hvalue : ∀ row' < rows, ∀ col' < cols, (row', col') ∈ cornerPoints row col size →
      F.lattice.get row' col' = f row' col' := by
    intro row' hrow' col' hcol' hp
    have hget := h.get_eq row' hrow' col' hcol'
    rwa [if_pos (hpoints _ hp)] at hget
  unfold Lattice.corners Corners.ofField
  rw [hvalue row (by omega) col (by omega) (by simp [cornerPoints]),
    hvalue row (by omega) (col + size) hcol (by simp [cornerPoints]),
    hvalue (row + size) hrow col (by omega) (by simp [cornerPoints]),
    hvalue (row + size) hrow (col + size) hcol (by simp [cornerPoints])]

end Account

/-! ## Passes -/

namespace Job.Journaled

open JournalPass

variable {j : Job} {σ : Store} {f : Nat → Nat → Float} {rows cols refined : Nat}

/-- A sample of a point that was not evaluated adds it to the account. -/
theorem sample_account (hf : j.HasField σ f) {s : Frame × Journal}
    (h : Account j σ f rows cols refined s) {p : Nat × Nat} (hrow : p.1 < rows)
    (hcol : p.2 < cols) (hnew : p ∉ s.2.evaluated) :
    ∃ s', sample j p.1 p.2 s = .ok () s' ∧ Account j σ f rows cols refined s' ∧
      s'.2.evaluated = s.2.evaluated ++ [p] := by
  obtain ⟨F, l⟩ := s
  have hvalue : j.sample p.1 p.2 F = .ok () (j.enter p.1 p.2 (f p.1 p.2) F) := by
    refine sample_of_value ?_
    rw [show j.axes.set F.store _ _ = _ from h.axes _ _]
    exact hf p.1 p.2
  refine ⟨(j.enter p.1 p.2 (f p.1 p.2) F, l.evaluate p), ?_, h.enter hrow hcol hnew, rfl⟩
  unfold sample Pass.journaled
  dsimp only
  rw [hvalue]

/-- The coarse pass evaluates the coarse points one after the other. -/
theorem coarse_account (hf : j.HasField σ f) (hr : 0 < j.resolution.refinement) :
    (coarse j rows cols).Leads
      (fun s => Account j σ f rows cols refined s ∧ s.2.evaluated = [])
      (fun s => Account j σ f rows cols refined s ∧
        s.2.evaluated = coarsePoints j.resolution.refinement rows cols) (fun _ => False) := by
  refine leads_forM
    (I := fun done s => Account j σ f rows cols refined s ∧ s.2.evaluated = done) _ ?_
  rintro done p rest hsplit s ⟨h, hdone⟩
  obtain ⟨⟨-, hrow⟩, -, hcol⟩ := (mem_coarsePoints hr).mp (mem_of_split hsplit)
  have hnew : p ∉ s.2.evaluated := by
    rw [hdone]
    exact fun hp => Before.irrefl p (before_of_mem (rowMajor_coarsePoints hr rows cols) hsplit hp)
  obtain ⟨s', hrun, h', hevaluated⟩ := sample_account hf h hrow hcol hnew
  rw [hrun]
  exact .ok ⟨h', by rw [hevaluated, hdone]⟩

/-- What the account says after some points of a block were visited. -/
def AccountOf (j : Job) (σ : Store) (f : Nat → Nat → Float) (rows cols refined : Nat)
    (sampled : Nat × Nat → Prop) (s : Frame × Journal) : Prop :=
  Account j σ f rows cols refined s ∧ ∀ p, p ∈ s.2.evaluated ↔ sampled p

theorem sampleOnce_account (hf : j.HasField σ f) {p : Nat × Nat} (hrow : p.1 < rows)
    (hcol : p.2 < cols) (hmark : (f p.1 p.2 == unsampled) = false)
    {sampled : Nat × Nat → Prop} :
    (sampleOnce j p.1 p.2).Leads (AccountOf j σ f rows cols refined sampled)
      (AccountOf j σ f rows cols refined fun q => q = p ∨ sampled q) (fun _ => False) := by
  rintro ⟨F, l⟩ ⟨h, hsampled⟩
  have hlook : Account j σ f rows cols refined (F, l.look [p]) := h.journal rfl
  unfold sampleOnce
  dsimp only
  by_cases hp : p ∈ l.evaluated
  · rw [if_pos ((h.isSampled_iff hrow hcol fun _ => hmark).mpr hp)]
    refine .ok ⟨hlook, fun q => (hsampled q).trans ⟨Or.inr, ?_⟩⟩
    rintro (rfl | hq)
    · exact (hsampled q).mp hp
    · exact hq
  · rw [if_neg (mt (h.isSampled_iff hrow hcol fun _ => hmark).mp hp)]
    obtain ⟨s', hrun, h', hevaluated⟩ := sample_account hf hlook hrow hcol hp
    rw [hrun]
    refine .ok ⟨h', fun q => ?_⟩
    rw [hevaluated, List.mem_append, List.mem_singleton, or_comm]
    exact or_congr_right (hsampled q)

theorem closeCell_account (row col fineRow fineCol : Nat) {sampled : Nat × Nat → Prop} :
    (closeCell j row col fineRow fineCol).Leads (AccountOf j σ f rows cols refined sampled)
      (AccountOf j σ f rows cols refined sampled) (fun _ => False) := by
  rintro ⟨F, l⟩ ⟨h, hsampled⟩
  unfold closeCell
  by_cases hborder : fineRow = row ∨ fineCol = col
  · rw [if_pos hborder]
    exact .ok ⟨h, hsampled⟩
  · rw [if_neg hborder]
    exact .ok ⟨(h.draw _ _).journal rfl, hsampled⟩

/-- After a coarse cell was refined its block is in the account. -/
theorem refine_account (hf : j.HasField σ f) {row col : Nat}
    (hrow : row + j.resolution.refinement < rows) (hcol : col + j.resolution.refinement < cols)
    (hmark : ∀ p ∈ blockPoints j.resolution.refinement row col,
      (f p.1 p.2 == unsampled) = false) {sampled : Nat × Nat → Prop} :
    (refine j row col).Leads (AccountOf j σ f rows cols refined sampled)
      (AccountOf j σ f rows cols refined fun p =>
        p ∈ blockPoints j.resolution.refinement row col ∨ sampled p) (fun _ => False) := by
  have hloop : (refine j row col).Leads
      (AccountOf j σ f rows cols refined fun p => p ∈ [] ∨ sampled p)
      (AccountOf j σ f rows cols refined fun p =>
        p ∈ blockPoints j.resolution.refinement row col ∨ sampled p) (fun _ => False) := by
    refine leads_forM
      (I := fun done => AccountOf j σ f rows cols refined fun p => p ∈ done ∨ sampled p) _ ?_
    intro done p rest hsplit
    have hp := mem_of_split hsplit
    obtain ⟨hpRow, hpCol⟩ := mem_blockPoints.mp hp
    have hnext : (fun q => q ∈ done ++ [p] ∨ sampled q) =
        fun q => q = p ∨ q ∈ done ∨ sampled q := by
      funext q
      rw [List.mem_append, List.mem_singleton, or_comm (a := q ∈ done), or_assoc]
    rw [hnext]
    exact (sampleOnce_account hf (lt_of_le_of_lt hpRow.2 hrow) (lt_of_le_of_lt hpCol.2 hcol)
      (hmark p hp)).seq (closeCell_account row col p.1 p.2)
  rintro s ⟨h, hsampled⟩
  refine hloop s ⟨h, fun p => (hsampled p).trans ?_⟩
  simp only [List.not_mem_nil, false_or]

/-- What the account says after some coarse cells were inspected. -/
def AccountAfter (j : Job) (σ : Store) (f : Nat → Nat → Float) (rows cols : Nat)
    (cells : List (Nat × Nat)) : Frame × Journal → Prop :=
  AccountOf j σ f rows cols (crossedCells f j.resolution.refinement cells).length
    (SampledBy f j.resolution.refinement rows cols cells)

/-- The block of a cell that is crossed comes to the points that are sampled. -/
theorem sampledBy_concat (f : Nat → Nat → Float) (r rows cols : Nat) (cells : List (Nat × Nat))
    (c : Nat × Nat) :
    SampledBy f r rows cols (cells ++ [c]) = fun p =>
      (Corners.ofField f c.1 c.2 r).signsDiffer = true ∧ p ∈ blockPoints r c.1 c.2 ∨
        SampledBy f r rows cols cells p := by
  funext p
  unfold SampledBy
  rw [crossedCells_concat]
  cases (Corners.ofField f c.1 c.2 r).signsDiffer with
  | true =>
    simp only [if_true, List.mem_append, List.mem_singleton, or_and_right, exists_or,
      exists_eq_left, true_and, eq_iff_iff]
    rw [← or_assoc, or_comm]
  | false => simp

theorem inspect_account (hf : j.HasField σ f) (hr : 0 < j.resolution.refinement)
    {cells : List (Nat × Nat)} {c : Nat × Nat}
    (hcell : c ∈ coarseCells j.resolution.refinement rows cols)
    (hmark : (Corners.ofField f c.1 c.2 j.resolution.refinement).signsDiffer = true →
      ∀ p ∈ blockPoints j.resolution.refinement c.1 c.2, (f p.1 p.2 == unsampled) = false) :
    (inspect j c.1 c.2).Leads (AccountAfter j σ f rows cols cells)
      (AccountAfter j σ f rows cols (cells ++ [c])) (fun _ => False) := by
  obtain ⟨hrow, hcol, hlast, hlast'⟩ := mem_coarseCells.mp hcell
  rintro ⟨F, l⟩ ⟨h, hsampled⟩
  have hcorners : F.lattice.corners c.1 c.2 j.resolution.refinement =
      Corners.ofField f c.1 c.2 j.resolution.refinement := by
    refine h.corners hlast hlast' fun p hp => (hsampled p).mpr (Or.inl ?_)
    exact cornerPoints_coarse hr hcell p hp
  have hlook : Account j σ f rows cols (crossedCells f j.resolution.refinement cells).length
      (F, (l.inspect c).look (cornerPoints c.1 c.2 j.resolution.refinement)) := h.journal rfl
  unfold inspect AccountAfter
  dsimp only
  rw [hcorners, Corners.isCrossed_eq_signsDiffer, crossedCells_concat, sampledBy_concat]
  cases hcrossed : (Corners.ofField f c.1 c.2 j.resolution.refinement).signsDiffer with
  | true =>
    simp only [if_true, true_and, List.length_append, List.length_singleton]
    exact refine_account hf hlast hlast' (hmark hcrossed) _ ⟨hlook.countRefined, hsampled⟩
  | false =>
    simp only [Bool.false_eq_true, if_false, false_and, false_or, List.append_nil]
    exact .ok ⟨hlook, hsampled⟩

/-- A trace of a field whose values are not the mark accounts for the points that are to be
sampled. -/
theorem run_account (hf : j.HasField σ f) (hr : 0 < j.resolution.refinement)
    (hmark : ∀ p ∈ sampledPoints f j.resolution.refinement rows cols,
      (f p.1 p.2 == unsampled) = false) :
    (run j rows cols).Leads
      (fun s => Account j σ f rows cols 0 s ∧ s.2.evaluated = [])
      (AccountAfter j σ f rows cols (coarseCells j.resolution.refinement rows cols))
      (fun _ => False) := by
  refine (coarse_account hf hr).seq ?_
  unfold contour
  dsimp only
  rw [product_multiples_eq_coarseCells hr]
  have hloop : JournalPass.Leads
      ((coarseCells j.resolution.refinement rows cols).forM fun c => inspect j c.1 c.2)
      (AccountAfter j σ f rows cols [])
      (AccountAfter j σ f rows cols (coarseCells j.resolution.refinement rows cols))
      (fun _ => False) := by
    refine leads_forM _ fun done c rest hsplit => ?_
    have hcell := mem_of_split hsplit
    refine inspect_account hf hr hcell fun hcrossed p hp => hmark p ?_
    refine mem_sampledPoints.mpr (Or.inr ⟨c, ?_, hp⟩)
    exact List.mem_filter.mpr ⟨hcell, hcrossed⟩
  rintro s ⟨h, hcoarse⟩
  refine hloop s ⟨h, fun p => ?_⟩
  rw [hcoarse]
  simp [SampledBy, crossedCells]

end Job.Journaled

/-! ## The main theorem -/

namespace Tracer

variable {t : Tracer} {r : Relation}

end Tracer

end ImplicitPlot.Contour

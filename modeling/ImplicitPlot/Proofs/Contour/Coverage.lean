import ImplicitPlot.Proofs.Contour.Enclosed
import ImplicitPlot.Proofs.Contour.Journal

/-
  How a lattice covers its canvas and how a trace goes over it. Between the points of a lattice
  lie whole coarse cells, as many as it takes to reach the far edge (`pointsAcross_covers`); if
  the number of points fits a word of 32 bits, computing it in such words does not overflow
  (`wordPointsAcross_eq`). So the fine cells are divided among the coarse cells
  (`existsUnique_coarseCell`).

  Whatever the program does, a trace touches only points of the lattice
  (`Job.journal_touched`), and if it goes through it inspects each coarse cell once
  (`Job.journal_inspected`). Both are read off the journal of the trace, which changes nothing of
  the trace itself (`Job.Journaled.forget_run`). `passes_cover_lattice` is all of this for the
  words that a canvas and a resolution are given in.
-/
namespace ImplicitPlot.Contour

open Symbols Expression

/-! ## Points that are touched -/

namespace Job.Journaled

open JournalPass

variable {rows cols : Nat}

/-- All points that were touched so far belong to the lattice. -/
def Touches (rows cols : Nat) (l : Journal) : Prop :=
  ∀ p ∈ l.touched, p.1 < rows ∧ p.2 < cols

theorem Touches.append {l l' : Journal} {points : List (Nat × Nat)} (h : Touches rows cols l)
    (htouched : l'.touched = l.touched ++ points)
    (hpoints : ∀ p ∈ points, p.1 < rows ∧ p.2 < cols) : Touches rows cols l' := by
  intro p hp
  rw [htouched] at hp
  rcases List.mem_append.mp hp with hp | hp
  · exact h p hp
  · exact hpoints p hp

theorem cornerPoints_inside {row col size : Nat} (hrow : row + size < rows)
    (hcol : col + size < cols) : ∀ p ∈ cornerPoints row col size, p.1 < rows ∧ p.2 < cols := by
  intro p hp
  simp only [cornerPoints, List.mem_cons, List.not_mem_nil, or_false] at hp
  rcases hp with rfl | rfl | rfl | rfl
  · exact ⟨by omega, by omega⟩
  · exact ⟨by omega, hcol⟩
  · exact ⟨hrow, by omega⟩
  · exact ⟨hrow, hcol⟩

/-- A pass that only touches points of the lattice. -/
def Stays (y : JournalPass) (rows cols : Nat) : Prop :=
  y.Leads (fun s => Touches rows cols s.2) (fun s => Touches rows cols s.2)
    (fun s => Touches rows cols s.2)

theorem sample_stays (j : Job) {row col : Nat} (hrow : row < rows) (hcol : col < cols) :
    Stays (sample j row col) rows cols :=
  leads_journaled _
    (fun _ hl => hl.append rfl fun _ hp => List.mem_singleton.mp hp ▸ ⟨hrow, hcol⟩)
    (fun _ hs => hs)

theorem sampleOnce_stays (j : Job) {row col : Nat} (hrow : row < rows) (hcol : col < cols) :
    Stays (sampleOnce j row col) rows cols := by
  rintro ⟨F, l⟩ hl
  have hlooked : Touches rows cols (l.look [(row, col)]) :=
    hl.append rfl fun _ hp => List.mem_singleton.mp hp ▸ ⟨hrow, hcol⟩
  unfold sampleOnce
  dsimp only
  split
  · exact .ok hlooked
  · exact sample_stays j hrow hcol _ hlooked

theorem closeCell_stays (j : Job) {row col fineRow fineCol : Nat} (hrow : row ≤ fineRow)
    (hcol : col ≤ fineCol) (hlast : fineRow < rows) (hlast' : fineCol < cols) :
    Stays (closeCell j row col fineRow fineCol) rows cols := by
  unfold closeCell
  by_cases hborder : fineRow = row ∨ fineCol = col
  · rw [if_pos hborder]
    exact fun s hs => .ok hs
  · rw [if_neg hborder]
    exact leads_journaled _
      (fun _ hl => hl.append rfl (cornerPoints_inside (by omega) (by omega))) (fun _ hs => hs)

theorem refine_stays (j : Job) {row col : Nat} (hrow : row + j.resolution.refinement < rows)
    (hcol : col + j.resolution.refinement < cols) : Stays (refine j row col) rows cols := by
  refine Leads.forM fun p hp => ?_
  obtain ⟨hfineRow, hfineCol⟩ := mem_blockPoints.mp hp
  exact (sampleOnce_stays j (by omega) (by omega)).seq
    (closeCell_stays j hfineRow.1 hfineCol.1 (by omega) (by omega))

theorem inspect_stays (j : Job) {row col : Nat} (hrow : row + j.resolution.refinement < rows)
    (hcol : col + j.resolution.refinement < cols) : Stays (inspect j row col) rows cols := by
  rintro ⟨F, l⟩ hl
  have hlooked : Touches rows cols
      ((l.inspect (row, col)).look (cornerPoints row col j.resolution.refinement)) :=
    hl.append rfl (cornerPoints_inside hrow hcol)
  unfold inspect
  dsimp only
  split
  · exact refine_stays j hrow hcol _ hlooked
  · exact .ok hlooked

theorem run_stays (j : Job) (hr : 0 < j.resolution.refinement) (rows cols : Nat) :
    Stays (run j rows cols) rows cols := by
  refine Leads.seq (Q := fun s => Touches rows cols s.2) ?_ ?_
  · refine Leads.forM fun p hp => ?_
    obtain ⟨⟨-, hrow⟩, -, hcol⟩ := (mem_coarsePoints hr).mp hp
    exact sample_stays j hrow hcol
  · unfold contour
    dsimp only
    rw [product_multiples_eq_coarseCells hr]
    refine Leads.forM fun p hp => ?_
    obtain ⟨-, -, hrow, hcol⟩ := mem_coarseCells.mp hp
    exact inspect_stays j hrow hcol

/-! ## Cells that are inspected -/

/-- A pass that inspects no coarse cell. -/
def InspectsNone (y : JournalPass) : Prop :=
  ∀ cells, y.Leads (fun s => s.2.inspected = cells) (fun s => s.2.inspected = cells)
    (fun _ => True)

theorem sample_inspectsNone (j : Job) (row col : Nat) : InspectsNone (sample j row col) :=
  fun cells => leads_journaled (I := (·.inspected = cells)) (J := (·.inspected = cells)) _
    (fun _ hl => hl) (fun _ _ => trivial)

theorem sampleOnce_inspectsNone (j : Job) (row col : Nat) :
    InspectsNone (sampleOnce j row col) := by
  rintro cells ⟨F, l⟩ hl
  unfold sampleOnce
  dsimp only
  split
  · exact .ok hl
  · exact sample_inspectsNone j row col cells _ hl

theorem closeCell_inspectsNone (j : Job) (row col fineRow fineCol : Nat) :
    InspectsNone (closeCell j row col fineRow fineCol) := by
  unfold closeCell
  by_cases hborder : fineRow = row ∨ fineCol = col
  · rw [if_pos hborder]
    exact fun cells s hs => .ok hs
  · rw [if_neg hborder]
    exact fun cells => leads_journaled (I := (·.inspected = cells))
      (J := (·.inspected = cells)) _ (fun _ hl => hl) (fun _ _ => trivial)

theorem refine_inspectsNone (j : Job) (row col : Nat) : InspectsNone (refine j row col) :=
  fun cells => Leads.forM fun p _ =>
    (sampleOnce_inspectsNone j p.1 p.2 cells).seq (closeCell_inspectsNone j row col p.1 p.2 cells)

theorem inspect_inspects (j : Job) (cells : List (Nat × Nat)) (p : Nat × Nat) :
    (inspect j p.1 p.2).Leads (fun s => s.2.inspected = cells)
      (fun s => s.2.inspected = cells ++ [p]) (fun _ => True) := by
  rintro ⟨F, l⟩ hl
  have hentered : l.inspected ++ [(p.1, p.2)] = cells ++ [p] := by
    rw [show l.inspected = cells from hl]
  unfold inspect
  dsimp only
  split
  · exact refine_inspectsNone j p.1 p.2 (cells ++ [p]) _ hentered
  · exact .ok hentered

/-- A trace that goes through inspects the coarse cells one after the other. -/
theorem run_inspects (j : Job) (hr : 0 < j.resolution.refinement) (rows cols : Nat) :
    (run j rows cols).Leads (fun s => s.2.inspected = [])
      (fun s => s.2.inspected = coarseCells j.resolution.refinement rows cols)
      (fun _ => True) := by
  refine Leads.seq (Q := fun s => s.2.inspected = []) ?_ ?_
  · exact Leads.forM fun p _ => sample_inspectsNone j p.1 p.2 []
  · unfold contour
    dsimp only
    rw [product_multiples_eq_coarseCells hr]
    exact leads_forM (I := fun done s => s.2.inspected = done) _ fun done p rest _ =>
      inspect_inspects j done p

end Job.Journaled

/-! ## Traces -/

namespace Job

theorem journal_touched (j : Job) (hr : 0 < j.resolution.refinement) (rows cols : Nat)
    (F : Frame) : ∀ p ∈ (j.journal rows cols F).touched, p.1 < rows ∧ p.2 < cols := by
  have hstart : Journaled.Touches rows cols Journal.empty := fun _ hp => by cases hp
  have hend := Journaled.run_stays j hr rows cols (F, .empty) hstart
  unfold journal
  generalize Journaled.run j rows cols (F, .empty) = result at hend
  cases hend with
  | ok h => exact h
  | error h => exact h

theorem journal_inspected {j : Job} (hr : 0 < j.resolution.refinement) {rows cols : Nat}
    {F F' : Frame} (hrun : j.run rows cols F = .ok () F') :
    (j.journal rows cols F).inspected = coarseCells j.resolution.refinement rows cols := by
  have hend := Journaled.run_inspects j hr rows cols (F, .empty) rfl
  rw [Journaled.run_eq_ok hrun] at hend
  cases hend with
  | ok h => exact h

end Job

/-! ## The size of a lattice -/

theorem Resolution.coarseStep_lt {r : Resolution} (h : r.check = .ok ()) :
    r.coarseStep < 2 ^ 32 := by
  unfold check at h
  split at h
  · cases h
  split at h
  · cases h
  split at h
  · cases h
  · rename_i hlt
    exact not_le.mp hlt

namespace Lattice

theorem pointsAcross_eq {r : Resolution} (h : r.check = .ok ()) (pixels : Nat) :
    pointsAcross r pixels =
      (pixels + r.coarseStep - 1) / r.coarseStep * r.refinement + 1 := by
  have hr := Tracer.refinement_pos h
  have hs := Resolution.fineStep_pos h
  unfold pointsAcross Resolution.coarseStep
  rw [Nat.max_eq_left hr, Nat.max_eq_left hs]

theorem coarseStep_pos {r : Resolution} (h : r.check = .ok ()) : 0 < r.coarseStep :=
  Nat.mul_pos (Resolution.fineStep_pos h) (Tracer.refinement_pos h)

/-- Whole coarse cells reach the far edge of the canvas, and no further than they have to. -/
theorem pointsAcross_covers {r : Resolution} (h : r.check = .ok ()) (pixels : Nat) :
    r.refinement ∣ pointsAcross r pixels - 1 ∧
      pixels ≤ (pointsAcross r pixels - 1) * r.fineStep ∧
      (pointsAcross r pixels - 1) * r.fineStep < pixels + r.coarseStep := by
  have hpos := coarseStep_pos h
  rw [pointsAcross_eq h, Nat.add_sub_cancel]
  have hside : (pixels + r.coarseStep - 1) / r.coarseStep * r.refinement * r.fineStep =
      (pixels + r.coarseStep - 1) / r.coarseStep * r.coarseStep := by
    rw [Resolution.coarseStep, Nat.mul_assoc, Nat.mul_comm r.refinement]
  have hdiv := Nat.div_add_mod' (pixels + r.coarseStep - 1) r.coarseStep
  have hmod := Nat.mod_lt (pixels + r.coarseStep - 1) hpos
  rw [hside]
  exact ⟨Nat.dvd_mul_left _ _, by omega, by omega⟩

/-- The number of points that cover some pixels, computed in words of 32 bits. -/
def wordPointsAcross (fineStep refinement pixels : UInt32) : Nat :=
  let refinement := max refinement 1
  let coarse := max fineStep 1 * refinement
  let cells := pixels / coarse + if pixels % coarse = 0 then 0 else 1
  (cells * refinement).toNat + 1

theorem max_one_eq {a : UInt32} (h : 0 < a.toNat) : max a 1 = a := by
  show (if a ≤ 1 then 1 else a) = a
  split
  · rename_i hle
    rw [UInt32.le_iff_toNat_le] at hle
    exact UInt32.toNat_inj.mp (Nat.le_antisymm h hle)
  · rfl

/-- A quotient of words that is rounded up is not above the dividend, so it is a word. -/
theorem toNat_div_up {a b : UInt32} (hb : 0 < b.toNat) :
    (a / b + if a % b = 0 then 0 else 1).toNat = (a.toNat + b.toNat - 1) / b.toNat := by
  have hsplit := Nat.div_add_mod' a.toNat b.toNat
  have hmod := Nat.mod_lt a.toNat hb
  have hword := a.toNat_lt
  have hle : a.toNat / b.toNat ≤ a.toNat / b.toNat * b.toNat := Nat.le_mul_of_pos_right _ hb
  have hrest : a % b = 0 ↔ a.toNat % b.toNat = 0 := by
    rw [← UInt32.toNat_inj, UInt32.toNat_mod]
    rfl
  rw [UInt32.toNat_add, UInt32.toNat_div]
  simp only [hrest]
  by_cases hzero : a.toNat % b.toNat = 0
  · rw [if_pos hzero, UInt32.toNat_zero, Nat.add_zero, Nat.mod_eq_of_lt (by omega)]
    refine (Nat.div_eq_of_lt_le (by omega) ?_).symm
    rw [Nat.succ_mul]
    omega
  · rw [if_neg hzero, UInt32.toNat_one, Nat.mod_eq_of_lt (by omega)]
    refine (Nat.div_eq_of_lt_le ?_ ?_).symm
    · rw [Nat.succ_mul]
      omega
    · rw [Nat.succ_mul, Nat.succ_mul]
      omega

/-- A number of points that fits a word is computed in words without an overflow. -/
theorem wordPointsAcross_eq {fineStep refinement pixels : UInt32}
    (h : Resolution.check ⟨fineStep.toNat, refinement.toNat⟩ = .ok ())
    (hfits : pointsAcross ⟨fineStep.toNat, refinement.toNat⟩ pixels.toNat ≤ 2 ^ 32) :
    wordPointsAcross fineStep refinement pixels =
      pointsAcross ⟨fineStep.toNat, refinement.toNat⟩ pixels.toNat := by
  have hcoarse : (fineStep * refinement).toNat =
      Resolution.coarseStep ⟨fineStep.toNat, refinement.toNat⟩ := by
    rw [UInt32.toNat_mul]
    exact Nat.mod_eq_of_lt (Resolution.coarseStep_lt h)
  have hpos : 0 < (fineStep * refinement).toNat := hcoarse ▸ coarseStep_pos h
  unfold wordPointsAcross
  dsimp only
  rw [max_one_eq (Tracer.refinement_pos h), max_one_eq (Resolution.fineStep_pos h),
    UInt32.toNat_mul, toNat_div_up hpos, hcoarse]
  rw [pointsAcross_eq h] at hfits ⊢
  rw [Nat.mod_eq_of_lt hfits]

end Lattice

/-! ## Coarse cells -/

theorem nodup_coarseCells (r rows cols : Nat) : (coarseCells r rows cols).Nodup := by
  refine List.nodup_iff_pairwise_ne.mpr ((rowMajor_coarseCells r rows cols).imp ?_)
  rintro p q hbefore rfl
  exact Before.irrefl p hbefore

/-- The coarse cells are those whose whole block lies in the lattice. -/
theorem mem_coarseCells_iff_block {r rows cols row col : Nat} :
    (row, col) ∈ coarseCells r rows cols ↔
      r ∣ row ∧ r ∣ col ∧ ∀ p ∈ blockPoints r row col, p.1 < rows ∧ p.2 < cols := by
  rw [mem_coarseCells]
  constructor
  · rintro ⟨hrow, hcol, hlast, hlast'⟩
    refine ⟨hrow, hcol, fun p hp => ?_⟩
    obtain ⟨hpRow, hpCol⟩ := mem_blockPoints.mp hp
    exact ⟨by omega, by omega⟩
  · rintro ⟨hrow, hcol, hblock⟩
    have hcorner : (row + r, col + r) ∈ blockPoints r row col := mem_blockPoints.mpr (by omega)
    exact ⟨hrow, hcol, hblock _ hcorner⟩

/-- A canvas that is not empty has a coarse cell. -/
theorem coarseCells_ne_nil {r : Resolution} (h : r.check = .ok ()) {height width : Nat}
    (hheight : 0 < height) (hwidth : 0 < width) :
    coarseCells r.refinement (Lattice.pointsAcross r height) (Lattice.pointsAcross r width) ≠
      [] := by
  have hpast : ∀ {pixels : Nat}, 0 < pixels → r.refinement < Lattice.pointsAcross r pixels := by
    intro pixels hpixels
    obtain ⟨hdvd, hcovers, -⟩ := Lattice.pointsAcross_covers h pixels
    have hpos : 0 < Lattice.pointsAcross r pixels - 1 := by
      refine Nat.pos_of_ne_zero fun hzero => ?_
      rw [hzero, Nat.zero_mul] at hcovers
      omega
    have hle := Nat.le_of_dvd hpos hdvd
    omega
  have hfirst : (0, 0) ∈ coarseCells r.refinement (Lattice.pointsAcross r height)
      (Lattice.pointsAcross r width) :=
    mem_coarseCells.mpr ⟨Nat.dvd_zero _, Nat.dvd_zero _, by rw [Nat.zero_add]; exact hpast hheight,
      by rw [Nat.zero_add]; exact hpast hwidth⟩
  exact List.ne_nil_of_mem hfirst

/-- Each fine cell of a lattice of whole coarse cells belongs to exactly one of them. -/
theorem existsUnique_coarseCell {r rows cols fineRow fineCol : Nat} (hr : 0 < r)
    (hrows : r ∣ rows - 1) (hcols : r ∣ cols - 1) (hrow : fineRow + 1 < rows)
    (hcol : fineCol + 1 < cols) :
    ∃! cell, cell ∈ coarseCells r rows cols ∧ (fineRow, fineCol) ∈ fineCells r cell.1 cell.2 := by
  have hinside : ∀ {i n : Nat}, r ∣ n - 1 → i + 1 < n → i / r * r + r < n := by
    rintro i n ⟨k, hk⟩ hi
    have hlt : i / r < k := Nat.div_lt_of_lt_mul (by omega)
    have hle : (i / r + 1) * r ≤ k * r := Nat.mul_le_mul_right r hlt
    rw [Nat.succ_mul, Nat.mul_comm k] at hle
    omega
  have hwithin : ∀ i : Nat, i / r * r ≤ i ∧ i < i / r * r + r := by
    intro i
    have hsplit := Nat.div_add_mod' i r
    have hmod := Nat.mod_lt i hr
    omega
  have hcell : ∀ {i c : Nat}, r ∣ c → c ≤ i → i < c + r → c = i / r * r := by
    rintro i c ⟨k, rfl⟩ hle hlt
    have hk : i / r = k := Nat.div_eq_of_lt_le (by rw [Nat.mul_comm]; exact hle)
      (by rw [Nat.succ_mul, Nat.mul_comm k]; exact hlt)
    rw [hk, Nat.mul_comm]
  refine ⟨(fineRow / r * r, fineCol / r * r), ⟨?_, ?_⟩, ?_⟩
  · exact mem_coarseCells.mpr ⟨Nat.dvd_mul_left r _, Nat.dvd_mul_left r _, hinside hrows hrow,
      hinside hcols hcol⟩
  · exact mem_fineCells.mpr ⟨hwithin fineRow, hwithin fineCol⟩
  · rintro ⟨row, col⟩ ⟨hmem, hfine⟩
    obtain ⟨hdvd, hdvd', -, -⟩ := mem_coarseCells.mp hmem
    obtain ⟨hrow', hcol'⟩ := mem_fineCells.mp hfine
    exact Prod.ext (hcell hdvd hrow'.1 hrow'.2) (hcell hdvd' hcol'.1 hcol'.2)

/-! ## The main theorem -/

/-- A lattice covers its canvas with whole coarse cells, and less than one coarse cell beyond it.
A trace over it, of any program, is the trace that keeps a journal when that is forgotten, and
touches only points of the lattice. If the program has a value the trace goes through and inspects
exactly the coarse cells that lie in the lattice as a whole, each once. They divide the fine cells
among them, and there is one unless the canvas is empty. -/
theorem passes_cover_lattice (fineStep refinement width height : UInt32) :
    let r : Resolution := ⟨fineStep.toNat, refinement.toNat⟩
    let rows := Lattice.pointsAcross r height.toNat
    let cols := Lattice.pointsAcross r width.toNat
    r.check = .ok () → rows ≤ 2 ^ 32 → cols ≤ 2 ^ 32 →
      (Lattice.wordPointsAcross fineStep refinement height = rows ∧
        Lattice.wordPointsAcross fineStep refinement width = cols) ∧
      (r.refinement ∣ rows - 1 ∧ height.toNat ≤ (rows - 1) * r.fineStep ∧
        (rows - 1) * r.fineStep < height.toNat + r.coarseStep) ∧
      (r.refinement ∣ cols - 1 ∧ width.toNat ≤ (cols - 1) * r.fineStep ∧
        (cols - 1) * r.fineStep < width.toNat + r.coarseStep) ∧
      (∀ (j : Job) (F : Frame), j.resolution = r →
        JournalPass.forget (Job.Journaled.run j rows cols (F, .empty)) = j.run rows cols F ∧
          (∀ p ∈ (j.journal rows cols F).touched, p.1 < rows ∧ p.2 < cols) ∧
          ((∃ τ x, j.program.value τ = .ok x) →
            (∃ F', j.run rows cols F = .ok () F') ∧
              (j.journal rows cols F).inspected = coarseCells r.refinement rows cols)) ∧
      (coarseCells r.refinement rows cols).Nodup ∧
      (∀ row col, (row, col) ∈ coarseCells r.refinement rows cols ↔
        r.refinement ∣ row ∧ r.refinement ∣ col ∧
          ∀ p ∈ blockPoints r.refinement row col, p.1 < rows ∧ p.2 < cols) ∧
      (∀ fineRow fineCol, fineRow + 1 < rows → fineCol + 1 < cols →
        ∃! cell, cell ∈ coarseCells r.refinement rows cols ∧
          (fineRow, fineCol) ∈ fineCells r.refinement cell.1 cell.2) ∧
      (0 < height.toNat → 0 < width.toNat → coarseCells r.refinement rows cols ≠ []) := by
  intro r rows cols hcheck hrows hcols
  have hr : 0 < r.refinement := Tracer.refinement_pos hcheck
  have hheight := Lattice.pointsAcross_covers hcheck height.toNat
  have hwidth := Lattice.pointsAcross_covers hcheck width.toNat
  refine ⟨⟨Lattice.wordPointsAcross_eq hcheck hrows, Lattice.wordPointsAcross_eq hcheck hcols⟩,
    hheight, hwidth, ?passes, nodup_coarseCells _ _ _, fun _ _ => mem_coarseCells_iff_block, ?fine,
    coarseCells_ne_nil hcheck⟩
  case passes =>
    rintro j F hj
    rw [← hj] at hr ⊢
    refine ⟨Job.Journaled.forget_run j rows cols F .empty, j.journal_touched hr rows cols F, ?_⟩
    rintro ⟨τ, hvalue⟩
    have hcode := (Program.exists_value_iff τ j.program).mp hvalue
    obtain ⟨F', hrun, -⟩ := Job.run_ensures_ok hcode rows cols F trivial
    exact ⟨⟨F', hrun⟩, Job.journal_inspected hr hrun⟩
  case fine =>
    intro fineRow fineCol hrow hcol
    exact existsUnique_coarseCell hr hheight.1 hwidth.1 hrow hcol

/-- A canvas of 42 by 7 pixels, of which the last coarse cells to the right and below are only
partly filled. -/
theorem passes_cover_lattice_partial_strips :
    let r : Resolution := ⟨5, 2⟩
    r.check = .ok () ∧
      Lattice.wordPointsAcross 5 2 7 = 3 ∧ Lattice.wordPointsAcross 5 2 42 = 11 ∧
      (2 ∣ 3 - 1 ∧ 7 ≤ (3 - 1) * 5 ∧ (3 - 1) * 5 < 7 + r.coarseStep) ∧
      (2 ∣ 11 - 1 ∧ 42 ≤ (11 - 1) * 5 ∧ (11 - 1) * 5 < 42 + r.coarseStep) ∧
      (∀ (j : Job) (F : Frame), j.resolution = r →
        JournalPass.forget (Job.Journaled.run j 3 11 (F, .empty)) = j.run 3 11 F ∧
          (∀ p ∈ (j.journal 3 11 F).touched, p.1 < 3 ∧ p.2 < 11) ∧
          ((∃ τ x, j.program.value τ = .ok x) →
            (∃ F', j.run 3 11 F = .ok () F') ∧
              (j.journal 3 11 F).inspected = [(0, 0), (0, 2), (0, 4), (0, 6), (0, 8)])) ∧
      ∃! cell, cell ∈ coarseCells 2 3 11 ∧ (1, 9) ∈ fineCells 2 cell.1 cell.2 := by
  intro r
  have hrows : Lattice.pointsAcross ⟨UInt32.toNat 5, UInt32.toNat 2⟩ (UInt32.toNat 7) = 3 := by
    decide
  have hcols : Lattice.pointsAcross ⟨UInt32.toNat 5, UInt32.toNat 2⟩ (UInt32.toNat 42) = 11 := by
    decide
  have hcover := passes_cover_lattice 5 2 42 7
  dsimp only at hcover
  rw [hrows, hcols] at hcover
  obtain ⟨⟨hword, hword'⟩, hheight, hwidth, hpasses, -, -, hfine, -⟩ :=
    hcover rfl (by decide) (by decide)
  have hcells : coarseCells 2 3 11 = [(0, 0), (0, 2), (0, 4), (0, 6), (0, 8)] := by decide
  refine ⟨rfl, hword, hword', hheight, hwidth, fun j F hj => ?_, hfine 1 9 (by decide) (by decide)⟩
  obtain ⟨hforget, htouched, hinspected⟩ := hpasses j F hj
  refine ⟨hforget, htouched, fun hvalue => ?_⟩
  obtain ⟨hrun, hcoarse⟩ := hinspected hvalue
  exact ⟨hrun, hcoarse.trans hcells⟩

end ImplicitPlot.Contour

import ImplicitPlot.Proofs.Contour.Crossing
import ImplicitPlot.Proofs.Contour.Direct
import ImplicitPlot.Proofs.Contour.History
import ImplicitPlot.Proofs.Contour.Sides

/-
  What is drawn stays where it belongs: the segments of a cell within the cell, those of a trace
  within its lattice. Each end of a segment is the crossing of a side, so this is what is known
  of crossings, with their one exception (`Corners.ProductsFit`). The segments of a trace are
  those of fine cells of a field, or there are none: a program without a value fails at the first
  point, before anything is drawn.
-/
namespace ImplicitPlot.Contour

open Number Symbols Expression

/-! ## Cells -/

/-- A pixel of the rectangle between two pixels. -/
def Pixel.Inside (p lo hi : Pixel) : Prop :=
  (lo.x ≤ p.x ∧ p.x ≤ hi.x) ∧ lo.y ≤ p.y ∧ p.y ≤ hi.y

/-- A segment with both ends in the rectangle between two pixels. -/
def Segment.Inside (s : Segment) (lo hi : Pixel) : Prop :=
  s.start.Inside lo hi ∧ s.stop.Inside lo hi

theorem Segment.Inside.mono {s : Segment} {lo hi lo' hi' : Pixel} (h : s.Inside lo hi)
    (hlo : lo'.x ≤ lo.x ∧ lo'.y ≤ lo.y) (hhi : hi.x ≤ hi'.x ∧ hi.y ≤ hi'.y) :
    s.Inside lo' hi' := by
  unfold Inside Pixel.Inside at *
  omega

namespace Corners

variable {c : Corners} {o : Pixel} {step : ℤ}

theorem crossingAt_inside_iff (side : Side) :
    (c.crossingAt o step side).Inside o ⟨o.x + step, o.y + step⟩ ↔
      0 ≤ crossing (c.ends side).1 (c.ends side).2 step ∧
        crossing (c.ends side).1 (c.ends side).2 step ≤ step := by
  cases side <;> simp only [crossingAt, top, bottom, left, right, ends, Pixel.Inside] <;> omega

theorem exists_ends (hfinite : c.allFinite = true) {side : Side}
    (hdiffers : c.differsAlong side = true) (hstep : 1 ≤ step) (hlt : step < 2 ^ 31) :
    ∃ u w, Ends (c.ends side).1 (c.ends side).2 step u w := by
  simp only [allFinite, Bool.and_eq_true, isFinite_iff] at hfinite
  obtain ⟨⟨⟨⟨u₁, h₁⟩, u₂, h₂⟩, u₃, h₃⟩, u₄, h₄⟩ := hfinite
  have hsigns := bne_iff_ne.mp hdiffers
  cases side with
  | top => exact ⟨u₁, u₂, h₁, h₂, hsigns, hstep, hlt⟩
  | bottom => exact ⟨u₃, u₄, h₃, h₄, hsigns, hstep, hlt⟩
  | left => exact ⟨u₁, u₃, h₁, h₃, hsigns, hstep, hlt⟩
  | right => exact ⟨u₂, u₄, h₂, h₄, hsigns, hstep, hlt⟩

/-- A crossing is on its side, unless the product overflows alone and the side is shorter than
the largest word. -/
theorem crossingAt_inside_iff_not_overflows (hfinite : c.allFinite = true) {side : Side}
    (hdiffers : c.differsAlong side = true) (hstep : 1 ≤ step) (hlt : step < 2 ^ 31) :
    (c.crossingAt o step side).Inside o ⟨o.x + step, o.y + step⟩ ↔
      ¬Overflows (c.ends side).1 (c.ends side).2 step ∨ step = 2 ^ 31 - 1 := by
  obtain ⟨u, w, h⟩ := exists_ends hfinite hdiffers hstep hlt
  rw [crossingAt_inside_iff]
  by_cases hover : Overflows (c.ends side).1 (c.ends side).2 step
  · rw [h.crossing_of_overflows hover]
    simp only [hover, not_true, false_or]
    omega
  · exact iff_of_true (h.crossing_mem hover) (Or.inl hover)

/-- The ends of the segments of a cell are the crossings of the sides whose values differ in
sign. -/
theorem forall_ends_iff (hfinite : c.allFinite = true) {P : Pixel → Prop} :
    (∀ s ∈ c.segments o step, P s.start ∧ P s.stop) ↔
      ∀ side, c.differsAlong side = true → P (c.crossingAt o step side) := by
  rw [segments_eq_joins]
  simp only [← mem_usedSides hfinite, usedSides, List.mem_flatMap, List.forall_mem_map]
  constructor
  · rintro h side ⟨⟨a, b⟩, hmem, hside⟩
    have hends := h (a, b) hmem
    rcases List.mem_pair.mp hside with rfl | rfl
    · exact hends.1
    · exact hends.2
  · rintro h ⟨a, b⟩ hmem
    exact ⟨h a ⟨(a, b), hmem, by simp⟩, h b ⟨(a, b), hmem, by simp⟩⟩

/-- No product overflows alone where the values at the ends of a side differ in sign, or the
sides are as long as the largest word. -/
def ProductsFit (c : Corners) (step : ℤ) : Prop :=
  c.allFinite = true → ∀ side, c.differsAlong side = true →
    ¬Overflows (c.ends side).1 (c.ends side).2 step ∨ step = 2 ^ 31 - 1

theorem productsFit_of_finite {step : ℤ}
    (h : ∀ side, ((c.ends side).1 * .ofInt step).isFinite = true) : c.ProductsFit step := by
  intro _ side _
  refine Or.inl fun hover => ?_
  have hproduct := hover.1
  rw [h side] at hproduct
  cases hproduct

theorem segments_inside_iff (hstep : 1 ≤ step) (hlt : step < 2 ^ 31) :
    (∀ s ∈ c.segments o step, s.Inside o ⟨o.x + step, o.y + step⟩) ↔ c.ProductsFit step := by
  unfold ProductsFit
  by_cases hfinite : c.allFinite = true
  · unfold Segment.Inside
    rw [forall_ends_iff hfinite (P := fun p => p.Inside o ⟨o.x + step, o.y + step⟩)]
    refine ⟨fun h _ side hdiffers => ?_, fun h side hdiffers => ?_⟩
    · exact (crossingAt_inside_iff_not_overflows hfinite hdiffers hstep hlt).mp (h side hdiffers)
    · exact (crossingAt_inside_iff_not_overflows hfinite hdiffers hstep hlt).mpr
        (h hfinite side hdiffers)
  · rw [segments_of_not_finite (Bool.eq_false_iff.mpr hfinite)]
    exact iff_of_true (fun s hs => by cases hs) (fun h => absurd h hfinite)

end Corners

/-! ## Fields -/

/-- The products fit in all cells of a field that are marched. -/
def FieldFits (f : Nat → Nat → Float) (r : Nat) (step : ℤ) (rows cols : Nat) : Prop :=
  ∀ row col, (row, col) ∈ coarseCells r rows cols →
    (Corners.ofField f row col r).signsDiffer = true →
      ∀ fineRow fineCol, (fineRow, fineCol) ∈ fineCells r row col →
        (Corners.ofField f fineRow fineCol 1).ProductsFit step

theorem mem_fineCells {r row col fineRow fineCol : Nat} :
    (fineRow, fineCol) ∈ fineCells r row col ↔
      (row ≤ fineRow ∧ fineRow < row + r) ∧ col ≤ fineCol ∧ fineCol < col + r := by
  unfold fineCells
  rw [List.pair_mem_product, List.mem_range'_1, List.mem_range'_1]

/-- The products fit if they are finite at every point. -/
theorem fieldFits_of_finite {f : Nat → Nat → Float} {r rows cols : Nat} {step : ℤ}
    (h : ∀ row < rows, ∀ col < cols, (f row col * .ofInt step).isFinite = true) :
    FieldFits f r step rows cols := by
  intro row col hcell _ fineRow fineCol hfine
  obtain ⟨-, -, hrows, hcols⟩ := mem_coarseCells.mp hcell
  obtain ⟨hrow, hcol⟩ := mem_fineCells.mp hfine
  refine Corners.productsFit_of_finite fun side => ?_
  cases side with
  | top => exact h fineRow (by omega) fineCol (by omega)
  | bottom => exact h (fineRow + 1) (by omega) fineCol (by omega)
  | left => exact h fineRow (by omega) fineCol (by omega)
  | right => exact h fineRow (by omega) (fineCol + 1) (by omega)

/-- A segment of a field belongs to a fine cell of a coarse cell that is crossed. -/
theorem mem_fieldSegments {f : Nat → Nat → Float} {r rows cols : Nat} {step : ℤ} {s : Segment} :
    s ∈ fieldSegments f r step rows cols ↔
      ∃ row col, (row, col) ∈ coarseCells r rows cols ∧
        (Corners.ofField f row col r).signsDiffer = true ∧
        ∃ fineRow fineCol, (fineRow, fineCol) ∈ fineCells r row col ∧
          s ∈ cellSegments f step fineRow fineCol := by
  simp only [fieldSegments, blockSegments, List.mem_flatMap, List.mem_filter, Prod.exists,
    and_assoc]

/-- The far side of a point of a lattice is at most that of the last point. -/
theorem cell_le_last {i n step : Nat} (h : i + 1 < n) :
    ((i : ℤ) * step) + step ≤ ((n - 1 : ℕ) : ℤ) * step := by
  have hle : (i + 1) * step ≤ (n - 1) * step := Nat.mul_le_mul_right step (by omega)
  rw [Nat.succ_mul] at hle
  exact_mod_cast hle

/-- The segments of a field stay on its lattice. -/
theorem fieldSegments_inside {f : Nat → Nat → Float} {r step rows cols : Nat} (hstep : 1 ≤ step)
    (hlt : step < 2 ^ 31) (hfits : FieldFits f r step rows cols) :
    ∀ s ∈ fieldSegments f r step rows cols,
      s.Inside ⟨0, 0⟩ ⟨(cols - 1 : ℕ) * step, (rows - 1 : ℕ) * step⟩ := by
  intro s hs
  obtain ⟨row, col, hcell, hcrossed, fineRow, fineCol, hfine, hmem⟩ := mem_fieldSegments.mp hs
  have hfit := hfits row col hcell hcrossed fineRow fineCol hfine
  have hinside := (Corners.segments_inside_iff (by omega) (by omega)).mpr hfit s hmem
  obtain ⟨-, -, hrows, hcols⟩ := mem_coarseCells.mp hcell
  obtain ⟨hrow, hcol⟩ := mem_fineCells.mp hfine
  refine hinside.mono ⟨?_, ?_⟩ ⟨?_, ?_⟩
  · exact Int.mul_nonneg (by omega) (by omega)
  · exact Int.mul_nonneg (by omega) (by omega)
  · exact cell_le_last (by omega)
  · exact cell_le_last (by omega)

/-! ## Traces -/

theorem Resolution.fineStep_pos {r : Resolution} (h : r.check = .ok ()) : 0 < r.fineStep := by
  unfold check at h
  split at h
  · cases h
  · omega

theorem Lattice.pointsAcross_pos (r : Resolution) (pixels : Nat) : 0 < pointsAcross r pixels :=
  Nat.succ_pos _

/-- A run whose program has no value fails at the first point, and nothing is drawn. -/
theorem Job.run_of_no_value {j : Job} (hvalue : ¬∃ τ x, j.program.value τ = .ok x)
    (hr : 0 < j.resolution.refinement) {rows cols : Nat} (hrows : 0 < rows) (hcols : 0 < cols)
    (F : Frame) : ∃ e F', j.run rows cols F = .error e F' ∧ F'.drawn = F.drawn := by
  have hfirst : (0, 0) ∈ coarsePoints j.resolution.refinement rows cols :=
    (mem_coarsePoints hr).mpr ⟨⟨Nat.dvd_zero _, hrows⟩, Nat.dvd_zero _, hcols⟩
  obtain ⟨p, rest, hpoints⟩ := List.exists_cons_of_ne_nil (List.ne_nil_of_mem hfirst)
  have hsample : ∃ e, j.sample p.1 p.2 F = .error e (j.moveTo p.1 p.2 F) := by
    rw [sample_apply]
    cases h : j.program.value (j.axes.set F.store (j.pointAt p.1 p.2).x (j.pointAt p.1 p.2).y) with
    | ok x => exact absurd ⟨_, x, h⟩ hvalue
    | error e => exact ⟨e, rfl⟩
  obtain ⟨e, he⟩ := hsample
  refine ⟨e, j.moveTo p.1 p.2 F, ?_, rfl⟩
  unfold run
  rw [coarse_eq, hpoints]
  show EStateM.bind (EStateM.bind (j.sample p.1 p.2) _) _ F = _
  rw [EStateM.bind, EStateM.bind, he]

namespace Tracer

variable {t : Tracer} {σ : Store} {r : Relation} {canvas : Canvas}

/-- What a trace draws comes from the field of a program that has one. -/
theorem exists_field_of_mem_segments (hr : 0 < t.resolution.refinement) {s : Segment}
    (hs : s ∈ (t.trace σ r canvas).segments) :
    ∃ f, (t.job r canvas).HasField σ f ∧
      s ∈ fieldSegments f t.resolution.refinement (t.job r canvas).pixelStep
        (Lattice.pointsAcross t.resolution canvas.height)
        (Lattice.pointsAcross t.resolution canvas.width) := by
  by_cases hvalid : r.isValid = true
  · by_cases hvalue : ∃ τ x, r.program.value τ = .ok x
    · obtain ⟨f, hf⟩ := (t.job r canvas).exists_field hvalue σ
      obtain ⟨F, hrun, hF⟩ := Job.run_traced hf hr _
        (Traced.blank (t.job r canvas) σ f (Lattice.pointsAcross t.resolution canvas.height)
          (Lattice.pointsAcross t.resolution canvas.width) t.machine)
      rw [trace_of_run hvalid hrun, hF.drawn_eq, List.mem_toArray] at hs
      exact ⟨f, hf, hs⟩
    · obtain ⟨e, F, hrun, hF⟩ := Job.run_of_no_value (j := t.job r canvas) hvalue hr
        (Lattice.pointsAcross_pos t.resolution canvas.height)
        (Lattice.pointsAcross_pos t.resolution canvas.width) (t.firstFrame σ canvas)
      have hrunOver : t.runOver σ r canvas = .error e F := hrun
      have hdrawn : (t.trace σ r canvas).segments = #[] := by
        rw [trace_eq hvalid, hrunOver]
        exact hF
      rw [hdrawn] at hs
      exact absurd hs (Array.not_mem_empty s)
  · rw [trace_invalid hvalid] at hs
    exact absurd hs (Array.not_mem_empty s)

end Tracer

/-- The segments of a cell stay within it exactly when no product overflows alone, and those of a
trace stay on its lattice when that holds for all cells that it marches. -/
theorem segments_enclosed (c : Corners) (o : Pixel) (step : ℤ) (t : Tracer) (σ : Store)
    (r : Relation) (canvas : Canvas) :
    (1 ≤ step → step < 2 ^ 31 →
      ((∀ s ∈ c.segments o step, s.Inside o ⟨o.x + step, o.y + step⟩) ↔ c.ProductsFit step)) ∧
    let rows := Lattice.pointsAcross t.resolution canvas.height
    let cols := Lattice.pointsAcross t.resolution canvas.width
    let fineStep := t.resolution.fineStep
    (t.resolution.check = .ok () → (rows - 1) * fineStep < 2 ^ 31 →
      (cols - 1) * fineStep < 2 ^ 31 →
      (∀ f, (t.job r canvas).HasField σ f →
        FieldFits f t.resolution.refinement fineStep rows cols) →
      ∀ s ∈ (t.trace σ r canvas).segments,
        s.Inside ⟨0, 0⟩ ⟨(cols - 1 : ℕ) * fineStep, (rows - 1 : ℕ) * fineStep⟩) := by
  refine ⟨fun hstep hlt => Corners.segments_inside_iff hstep hlt, ?_⟩
  intro rows cols fineStep hcheck hrows hcols hfits s hs
  have hr : 0 < t.resolution.refinement := Tracer.refinement_pos hcheck
  obtain ⟨f, hf, hmem⟩ := Tracer.exists_field_of_mem_segments hr hs
  obtain ⟨row, col, hcell, -⟩ := mem_fieldSegments.mp hmem
  obtain ⟨-, -, hlast, -⟩ := mem_coarseCells.mp hcell
  have hstep : fineStep < 2 ^ 31 := by
    have hle : 1 * fineStep ≤ (rows - 1) * fineStep := Nat.mul_le_mul_right _ (by omega)
    omega
  rw [Job.pixelStep_eq (j := t.job r canvas) hstep] at hmem
  exact fieldSegments_inside (Resolution.fineStep_pos hcheck) hstep (hfits f hf) s hmem

/-- The lattice of three rows and columns over which `x - y` is traced has one coarse cell, and
no product over it overflows. -/
theorem segments_enclosed_diagonal :
    (∀ s ∈ (Corners.mk 1 (-1) (-1) (-1)).segments ⟨0, 0⟩ 5, s.Inside ⟨0, 0⟩ ⟨5, 5⟩) ∧
      ∃ (t : Tracer) (σ : Store) (r : Relation) (canvas : Canvas),
        t.resolution.check = .ok () ∧
        (∀ f, (t.job r canvas).HasField σ f → FieldFits f 2 5 3 3) ∧
        (t.trace σ r canvas).segments.size = 3 ∧
        ∀ s ∈ (t.trace σ r canvas).segments, s.Inside ⟨0, 0⟩ ⟨10, 10⟩ := by
  let x : Variable := ⟨"x", .free, 0⟩
  let y : Variable := ⟨"y", .free, 1⟩
  let t : Tracer := ⟨⟨x, y⟩, ⟨5, 2⟩, .empty, .new, .zero⟩
  let σ : Store := ⟨#[0.0, 0.0]⟩
  let r : Relation := ⟨"x=y", some .equal, ⟨[.load x, .load y, .apply Operator.subtraction]⟩⟩
  let canvas : Canvas := ⟨.default, 10, 10⟩
  have hpoints : Lattice.pointsAcross ⟨5, 2⟩ 10 = 3 := by decide
  have hvalues : ∀ row < 3, ∀ col < 3,
      (let p := (t.job r canvas).pointAt row col; ((p.x - p.y) * .ofInt 5).isFinite) = true := by
    decide +kernel
  have hfits : ∀ f, (t.job r canvas).HasField σ f → FieldFits f 2 5 3 3 := by
    intro f hf
    refine fieldFits_of_finite fun row hrow col hcol => ?_
    have hfield :
        ((t.job r canvas).pointAt row col).x - ((t.job r canvas).pointAt row col).y = f row col :=
      Except.ok.inj (hf row col)
    rw [← hfield]
    exact hvalues row hrow col hcol
  have hcell : (Corners.mk 1 (-1) (-1) (-1)).ProductsFit 5 := by
    refine Corners.productsFit_of_finite fun side => ?_
    cases side <;> decide +kernel
  obtain ⟨hcells, htraces⟩ := segments_enclosed ⟨1, -1, -1, -1⟩ ⟨0, 0⟩ 5 t σ r canvas
  refine ⟨(hcells (by decide) (by decide)).mpr hcell, t, σ, r, canvas, rfl, hfits,
    by decide +kernel, ?_⟩
  have hfits' : ∀ f, (t.job r canvas).HasField σ f →
      FieldFits f 2 5 (Lattice.pointsAcross ⟨5, 2⟩ 10) (Lattice.pointsAcross ⟨5, 2⟩ 10) := by
    rw [hpoints]
    exact hfits
  have hplot : (Lattice.pointsAcross ⟨5, 2⟩ 10 - 1) * 5 < 2 ^ 31 := by
    rw [hpoints]
    decide
  have hinside := htraces rfl hplot hplot hfits'
  have hlast : ((Lattice.pointsAcross ⟨5, 2⟩ 10 - 1 : ℕ) : ℤ) * (5 : ℕ) = 10 := by
    rw [hpoints]
    rfl
  intro s hs
  have hs' := hinside s hs
  exact hlast ▸ hs'

/-- A value of which five times is too large for a double puts both ends of a segment far outside
of a cell of five pixels. -/
theorem segments_not_enclosed_large :
    let c : Corners := ⟨.ofBits 0x7fe0000000000000, -1, -1, -1⟩
    c.allFinite = true ∧
      c.segments ⟨0, 0⟩ 5 = [⟨⟨2147483647, 0⟩, ⟨0, 2147483647⟩⟩] ∧
      ¬∀ s ∈ c.segments ⟨0, 0⟩ 5, s.Inside ⟨0, 0⟩ ⟨5, 5⟩ := by
  intro c
  have hsegments : c.segments ⟨0, 0⟩ 5 = [⟨⟨2147483647, 0⟩, ⟨0, 2147483647⟩⟩] := by
    decide +kernel
  refine ⟨by decide +kernel, hsegments, fun h => ?_⟩
  rw [hsegments] at h
  obtain ⟨⟨⟨-, hx⟩, -⟩, -⟩ := h _ List.mem_cons_self
  exact absurd hx (by decide)

end ImplicitPlot.Contour

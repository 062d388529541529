import ImplicitPlot.Proofs.Contour.Tracing

/-
  The trace of a relation, whatever the tracer did before: it draws exactly the contour of the
  field that the relation's program has over the lattice, in the order of the field's cells.
  The field is the program's value at the points of the plane that belong to the lattice; it does
  not depend on where the axes stand, because each sample sets both.
-/
namespace ImplicitPlot.Contour

open Symbols Expression

namespace Job

/-- A step that fits a signed word is not changed by it. -/
theorem pixelStep_eq {j : Job} (h : j.resolution.fineStep < Number.twoTo 31) :
    j.pixelStep = (j.resolution.fineStep : Int) := by
  have hhalf : Number.twoTo 31 = 2147483648 := rfl
  have hword : Number.twoTo 32 = 4294967296 := rfl
  unfold pixelStep
  rw [hword]
  exact Int.bmod_eq_of_le (by omega) (by omega)

/-- A program that has a value at all has one at every point. -/
theorem exists_field {j : Job} (h : ∃ τ x, j.program.value τ = .ok x) (σ : Store) :
    ∃ f, j.HasField σ f := by
  obtain ⟨τ, hτ⟩ := h
  have hcode := (Program.exists_value_iff τ j.program).mp hτ
  choose f hf using fun row col => (Program.exists_value_iff
    (j.axes.set σ (j.pointAt row col).x (j.pointAt row col).y) j.program).mpr hcode
  exact ⟨f, hf⟩

end Job

namespace Tracer

variable {t : Tracer} {r : Relation}

theorem refinement_pos {res : Resolution} (h : res.check = .ok ()) : 0 < res.refinement := by
  unfold Resolution.check at h
  split at h
  · cases h
  split at h
  · cases h
  omega

/-- A trace draws the contour of the field of its program and looks at nothing but the field, for
a lattice whose points fit the pixels of a picture. -/
theorem trace_draws_field (σ : Store) (canvas : Canvas) (hvalid : r.isValid = true)
    (hvalue : ∃ τ x, r.program.value τ = .ok x) (hresolution : t.resolution.check = .ok ())
    (hfits : ∀ row < Lattice.pointsAcross t.resolution canvas.height,
      ∀ col < Lattice.pointsAcross t.resolution canvas.width,
        row * t.resolution.fineStep < Number.twoTo 31 ∧
          col * t.resolution.fineStep < Number.twoTo 31) :
    ∃ f : Nat → Nat → Float,
      (∀ row col,
        let point := canvas.toPlane
          ⟨.ofNat (col * t.resolution.fineStep), .ofNat (row * t.resolution.fineStep)⟩
        r.program.value (t.axes.set σ point.x point.y) = .ok (f row col)) ∧
      let rows := Lattice.pointsAcross t.resolution canvas.height
      let cols := Lattice.pointsAcross t.resolution canvas.width
      let segments := fieldSegments f t.resolution.refinement t.resolution.fineStep rows cols
      (t.trace σ r canvas).outcome = .ok segments.length ∧
      (t.trace σ r canvas).segments = segments.toArray ∧
      (∀ c row col size,
        (t.job r canvas).Reads rows cols (t.firstFrame σ canvas) c row col size →
          c = Corners.ofField f row col size) ∧
      (t.resolution.refinement = 1 →
        segments = marchingSquares f t.resolution.fineStep rows cols) := by
  obtain ⟨f, hf⟩ := (t.job r canvas).exists_field hvalue σ
  have hr : 0 < t.resolution.refinement := refinement_pos hresolution
  have hstep : fieldSegments f t.resolution.refinement (t.job r canvas).pixelStep
      (Lattice.pointsAcross t.resolution canvas.height)
      (Lattice.pointsAcross t.resolution canvas.width) =
        fieldSegments f t.resolution.refinement t.resolution.fineStep
          (Lattice.pointsAcross t.resolution canvas.height)
          (Lattice.pointsAcross t.resolution canvas.width) := by
    refine fieldSegments_congr fun row col hcell => Job.pixelStep_eq ?_
    obtain ⟨-, -, hrows, hcols⟩ := mem_coarseCells.mp hcell
    have hone := (hfits 1 (by omega) 0 (by omega)).1
    rw [Nat.one_mul] at hone
    exact hone
  have hstart : Traced (t.job r canvas) σ f (Lattice.pointsAcross t.resolution canvas.height)
      (Lattice.pointsAcross t.resolution canvas.width) (fun _ => False) []
      (t.firstFrame σ canvas) := Traced.blank _ _ _ _ _ _
  obtain ⟨F, hrun, hF⟩ := Job.run_traced hf hr _ hstart
  refine ⟨f, hf, ?_, ?_, fun c row col size hread => ?_, fun hone => ?_⟩
  · rw [trace_of_run hvalid hrun, hF.count_eq, ← hstep]
    rfl
  · rw [trace_of_run hvalid hrun, hF.drawn_eq, ← hstep]
    rfl
  · exact Job.corners_of_reads hf hr hstart hread
  · rw [hone, fieldSegments_one]

theorem trace_draws_field_one_cell :
    ∃ (t : Tracer) (σ : Store) (r : Relation) (canvas : Canvas) (f : Nat → Nat → Float),
      t.resolution.check = .ok () ∧ r.isValid = true ∧ (∃ x, r.program.value σ = .ok x) ∧
        coarseCells 2 (Lattice.pointsAcross t.resolution canvas.height)
          (Lattice.pointsAcross t.resolution canvas.width) = [(0, 0)] ∧
        (t.trace σ r canvas).outcome = .ok (fieldSegments f 2 5 3 3).length ∧
        (t.trace σ r canvas).segments = (fieldSegments f 2 5 3 3).toArray := by
  let x : Variable := ⟨"x", .free, 0⟩
  let y : Variable := ⟨"y", .free, 1⟩
  let t : Tracer := ⟨⟨x, y⟩, ⟨5, 2⟩, .empty, .new, .zero⟩
  let σ : Store := ⟨#[0.0, 0.0]⟩
  let r : Relation := ⟨"x=y", some .equal, ⟨[.load x, .load y, .apply Operator.subtraction]⟩⟩
  let canvas : Canvas := ⟨.default, 10, 10⟩
  have hpoints : Lattice.pointsAcross ⟨5, 2⟩ 10 = 3 := by decide
  have hfits : ∀ row < Lattice.pointsAcross ⟨5, 2⟩ 10, ∀ col < Lattice.pointsAcross ⟨5, 2⟩ 10,
      row * 5 < Number.twoTo 31 ∧ col * 5 < Number.twoTo 31 := by
    rw [hpoints]
    decide
  obtain ⟨f, -, houtcome, hsegments, -⟩ :=
    trace_draws_field (t := t) (r := r) σ canvas rfl ⟨σ, _, rfl⟩ rfl hfits
  have hfield : fieldSegments f 2 5 (Lattice.pointsAcross ⟨5, 2⟩ 10)
      (Lattice.pointsAcross ⟨5, 2⟩ 10) = fieldSegments f 2 5 3 3 := by rw [hpoints]
  refine ⟨t, σ, r, canvas, f, rfl, rfl, ⟨_, rfl⟩, ?_, ?_, ?_⟩
  · show coarseCells 2 (Lattice.pointsAcross ⟨5, 2⟩ 10) (Lattice.pointsAcross ⟨5, 2⟩ 10) = _
    rw [hpoints]
    decide
  · rw [houtcome, ← hfield]
    rfl
  · rw [hsegments, ← hfield]
    rfl

end Tracer

end ImplicitPlot.Contour

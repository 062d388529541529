import ImplicitPlot.Contour.Tracer
import ImplicitPlot.Proofs.Expression.Height

/-
  What a pass of a trace ensures. `Pass.Ensures x P Q` says that `x` goes through from every frame
  with `P` and ends in one with `Q`. There is one rule for each way in which passes are built:
  one after the other, along a list, and for the two that look at the lattice first.

  A first use: if the program has a value at all, every pass goes through (`run_ensures_ok`), so a
  trace draws and leaves its relation alone (`Tracer.trace_ok`).
-/
namespace ImplicitPlot.Contour

open Symbols Expression

/-- From a frame with `P`, a pass goes through and ends in a frame with `Q`. -/
def Pass.Ensures (x : Pass) (P Q : Frame → Prop) : Prop :=
  ∀ F, P F → ∃ F', x F = .ok () F' ∧ Q F'

namespace Pass

theorem Ensures.seq {x y : Pass} {P Q R : Frame → Prop} (hx : x.Ensures P Q)
    (hy : y.Ensures Q R) : Pass.Ensures (x >>= fun _ => y) P R := by
  intro F hF
  obtain ⟨F₁, hF₁, hQ⟩ := hx F hF
  obtain ⟨F₂, hF₂, hR⟩ := hy F₁ hQ
  refine ⟨F₂, ?_, hR⟩
  show EStateM.bind x (fun _ => y) F = .ok () F₂
  rw [EStateM.bind, hF₁]
  exact hF₂

/-- Along a list, what holds of the part that is done goes on to hold with one more entry. -/
theorem ensures_forM {α : Type} {body : α → Pass} {I : List α → Frame → Prop} (l : List α)
    (hbody : ∀ done x rest, l = done ++ x :: rest → (body x).Ensures (I done) (I (done ++ [x]))) :
    Pass.Ensures (l.forM body) (I []) (I l) := by
  suffices h : ∀ rest done, l = done ++ rest → Pass.Ensures (rest.forM body) (I done) (I l) from
    h l [] rfl
  intro rest
  induction rest with
  | nil =>
    intro done hl F hF
    rw [List.append_nil] at hl
    exact ⟨F, rfl, hl ▸ hF⟩
  | cons x rest ih =>
    intro done hl
    show Pass.Ensures (body x >>= fun _ => rest.forM body) _ _
    exact (hbody done x rest hl).seq (ih (done ++ [x]) (by rw [hl, List.append_assoc]; rfl))

theorem Ensures.forM {α : Type} {body : α → Pass} {P : Frame → Prop} {l : List α}
    (h : ∀ x ∈ l, (body x).Ensures P P) : Pass.Ensures (l.forM body) P P :=
  ensures_forM (I := fun _ => P) l fun done x _ hl =>
    h x (hl ▸ List.mem_append_right done List.mem_cons_self)

end Pass

namespace Job

variable {j : Job} {P Q R : Frame → Prop}

/-- The frame after a point of the lattice got the value `x`. -/
def enter (j : Job) (row col : Nat) (x : Float) (F : Frame) : Frame :=
  let store := j.axes.set F.store (j.pointAt row col).x (j.pointAt row col).y
  { F with
    store
    machine := (F.machine.evaluate store j.program).2
    lattice := F.lattice.set row col x
    tally.evaluations := F.tally.evaluations + 1 }

theorem sample_of_value {row col : Nat} {F : Frame} {x : Float}
    (h : j.program.value (j.axes.set F.store (j.pointAt row col).x (j.pointAt row col).y) =
      .ok x) :
    j.sample row col F = .ok () (j.enter row col x F) := by
  rw [← Machine.evaluate_fst F.machine] at h
  unfold sample enter
  dsimp only
  rcases he : F.machine.evaluate
      (j.axes.set F.store (j.pointAt row col).x (j.pointAt row col).y) j.program with ⟨r, m⟩
  rw [he] at h
  subst h
  rfl

theorem sample_ensures {row col : Nat}
    (h : ∀ F, P F → ∃ x,
      j.program.value (j.axes.set F.store (j.pointAt row col).x (j.pointAt row col).y) = .ok x ∧
        Q (j.enter row col x F)) :
    (j.sample row col).Ensures P Q := by
  intro F hF
  obtain ⟨x, hx, hQ⟩ := h F hF
  exact ⟨_, sample_of_value hx, hQ⟩

/-- The segments that a march draws in the fine cell at a point. -/
def fineSegments (j : Job) (l : Lattice) (row col : Nat) : List Segment :=
  (l.corners row col 1).segments ⟨col * j.pixelStep, row * j.pixelStep⟩ j.pixelStep

/-- The frame after the segments of a fine cell were drawn. -/
def draw (j : Job) (row col : Nat) (F : Frame) : Frame :=
  { F with
    tally.segments := F.tally.segments + (j.fineSegments F.lattice row col).length
    drawn := F.drawn ++ j.fineSegments F.lattice row col }

theorem march_apply (j : Job) (row col : Nat) (F : Frame) :
    j.march row col F = .ok () (j.draw row col F) := rfl

/-- The first half of a visit: a sample, unless the fine point has a value. -/
def sampleOnce (j : Job) (row col : Nat) : Pass := do
  unless ← (·.lattice.isSampled row col) <$> get do
    j.sample row col

/-- The second half of a visit, once the fine point has a value. -/
def closeCell (j : Job) (row col fineRow fineCol : Nat) : Pass := do
  unless fineRow = row ∨ fineCol = col do
    j.march (fineRow - 1) (fineCol - 1)

theorem visit_eq (j : Job) (row col fineRow fineCol : Nat) :
    j.visit row col fineRow fineCol =
      j.sampleOnce fineRow fineCol >>= fun _ => j.closeCell row col fineRow fineCol := by
  unfold visit sampleOnce closeCell
  rw [bind_assoc]
  refine congrArg _ (funext fun sampled => ?_)
  cases sampled <;> rfl

theorem sampleOnce_apply (j : Job) (row col : Nat) (F : Frame) :
    j.sampleOnce row col F =
      if F.lattice.isSampled row col = true then .ok () F else j.sample row col F := by
  unfold sampleOnce
  show (if F.lattice.isSampled row col = true then _ else _ : Pass) F = _
  split <;> rfl

theorem sampleOnce_ensures {row col : Nat}
    (hdone : ∀ F, P F → F.lattice.isSampled row col = true → Q F)
    (hsample : (j.sample row col).Ensures P Q) : (j.sampleOnce row col).Ensures P Q := by
  intro F hF
  rw [sampleOnce_apply]
  cases hs : F.lattice.isSampled row col with
  | true => exact ⟨F, rfl, hdone F hF hs⟩
  | false => exact hsample F hF

theorem closeCell_ensures {row col fineRow fineCol : Nat}
    (hborder : fineRow = row ∨ fineCol = col → ∀ F, P F → Q F)
    (hmarch : ¬(fineRow = row ∨ fineCol = col) →
      ∀ F, P F → Q (j.draw (fineRow - 1) (fineCol - 1) F)) :
    (j.closeCell row col fineRow fineCol).Ensures P Q := by
  unfold closeCell
  by_cases hb : fineRow = row ∨ fineCol = col
  · rw [if_pos hb]
    exact fun F hF => ⟨F, rfl, hborder hb F hF⟩
  · rw [if_neg hb]
    exact fun F hF => ⟨_, march_apply j _ _ F, hmarch hb F hF⟩

/-- The count of refined cells grows when a cell is crossed. -/
def countRefined (F : Frame) : Frame := { F with tally.refinedCells := F.tally.refinedCells + 1 }

theorem inspect_apply (j : Job) (row col : Nat) (F : Frame) :
    j.inspect row col F =
      if (F.lattice.corners row col j.resolution.refinement).isCrossed = true then
        j.refine row col (countRefined F)
      else .ok () F := by
  unfold inspect
  show (if (F.lattice.corners row col j.resolution.refinement).isCrossed = true then _ else _ :
    Pass) F = _
  split <;> rfl

theorem inspect_ensures {row col : Nat}
    (hcrossed : (j.refine row col).Ensures
      (fun F => ∃ F₀, P F₀ ∧ F = countRefined F₀ ∧
        (F₀.lattice.corners row col j.resolution.refinement).isCrossed = true) Q)
    (hskip : ∀ F, P F →
      (F.lattice.corners row col j.resolution.refinement).isCrossed = false → Q F) :
    (j.inspect row col).Ensures P Q := by
  intro F hF
  rw [inspect_apply]
  cases hc : (F.lattice.corners row col j.resolution.refinement).isCrossed with
  | true => exact hcrossed (countRefined F) ⟨F, hF, rfl, hc⟩
  | false => exact ⟨F, rfl, hskip F hF hc⟩

/-! ## Passes go through -/

/-- A program that has a value under one store has one at every point. -/
theorem sample_ensures_ok (hcode : heightAfter? j.program.code 0 = some 1) (row col : Nat) :
    (j.sample row col).Ensures (fun _ => True) (fun _ => True) := by
  refine sample_ensures fun F _ => ?_
  obtain ⟨x, hx⟩ := (Program.exists_value_iff
    (j.axes.set F.store (j.pointAt row col).x (j.pointAt row col).y) _).mpr hcode
  exact ⟨x, hx, trivial⟩

theorem refine_ensures_ok (hcode : heightAfter? j.program.code 0 = some 1) (row col : Nat) :
    (j.refine row col).Ensures (fun _ => True) (fun _ => True) := by
  refine Pass.Ensures.forM fun fineRow _ => Pass.Ensures.forM fun fineCol _ => ?_
  rw [visit_eq]
  refine Pass.Ensures.seq (Q := fun _ => True) ?_ ?_
  · exact sampleOnce_ensures (fun _ _ _ => trivial) (sample_ensures_ok hcode fineRow fineCol)
  · exact closeCell_ensures (fun _ _ _ => trivial) (fun _ _ _ => trivial)

theorem run_ensures_ok (hcode : heightAfter? j.program.code 0 = some 1) (rows cols : Nat) :
    (j.run rows cols).Ensures (fun _ => True) (fun _ => True) := by
  refine Pass.Ensures.seq (Q := fun _ => True) ?_ ?_
  · exact Pass.Ensures.forM fun row _ => Pass.Ensures.forM fun col _ =>
      sample_ensures_ok hcode row col
  · refine Pass.Ensures.forM fun row _ => Pass.Ensures.forM fun col _ => ?_
    refine inspect_ensures (fun F _ => ?_) fun _ _ _ => trivial
    exact refine_ensures_ok hcode row col F trivial

end Job

namespace Tracer

/-- What a trace of a relation works on. -/
def job (t : Tracer) (r : Relation) (canvas : Canvas) : Job :=
  ⟨t.axes, r.program, canvas, t.resolution⟩

/-- What a trace starts with. -/
def firstFrame (t : Tracer) (σ : Store) (canvas : Canvas) : Frame :=
  ⟨σ, t.machine, Lattice.covering canvas t.resolution, .zero, #[]⟩

theorem trace_of_run {t : Tracer} {σ : Store} {r : Relation} {canvas : Canvas} {F : Frame}
    (hr : r.isValid = true)
    (h : (t.job r canvas).run (Lattice.pointsAcross t.resolution canvas.height)
      (Lattice.pointsAcross t.resolution canvas.width) (t.firstFrame σ canvas) = .ok () F) :
    t.trace σ r canvas =
      ⟨.ok F.tally.segments, F.drawn,
        { t with lattice := F.lattice, machine := F.machine, tally := F.tally }, F.store, r⟩ := by
  have hrun : Job.run ⟨t.axes, r.program, canvas, t.resolution⟩
      (Lattice.covering canvas t.resolution).rows (Lattice.covering canvas t.resolution).cols
      ⟨σ, t.machine, Lattice.covering canvas t.resolution, .zero, #[]⟩ = .ok () F := h
  unfold trace
  rw [if_neg (by rw [hr]; exact Bool.false_ne_true)]
  dsimp only
  rw [hrun]

/-- A valid relation whose program leaves one value is traced and stays as it is. -/
theorem trace_ok {r : Relation} (hr : r.isValid = true)
    (hcode : heightAfter? r.program.code 0 = some 1) (t : Tracer) (σ : Store) (canvas : Canvas) :
    (∃ n, (t.trace σ r canvas).outcome = .ok n) ∧ (t.trace σ r canvas).relation = r := by
  obtain ⟨F, hF, -⟩ := Job.run_ensures_ok (j := t.job r canvas) hcode
    (Lattice.pointsAcross t.resolution canvas.height)
    (Lattice.pointsAcross t.resolution canvas.width) (t.firstFrame σ canvas) trivial
  rw [trace_of_run hr hF]
  exact ⟨⟨_, rfl⟩, rfl⟩

end Tracer

end ImplicitPlot.Contour

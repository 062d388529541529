import ImplicitPlot.Proofs.Contour.Tracing
import ImplicitPlot.Proofs.Contour.Sides
import ImplicitPlot.Symbols.Standard

/-
  The contour has no gaps inside a coarse cell. What a refinement draws is what the fine cells
  have with the values that the lattice holds at the end (`Job.refine_draws`): no value changes
  once a fine cell was marched with it, because every point is visited once. Two fine cells on
  either side of a side see the same two values at its ends and place its crossing at the same
  pixel (`crossingAt_beyond`), and each of them ends one segment there or none
  (`block_watertight`).
-/
namespace ImplicitPlot.Contour

open Symbols Expression

/-! ## Neighbours -/

section Neighbours

variable {f : Nat → Nat → Float} {side : Side} {p q : Nat × Nat}

theorem ends_beyond (h : side.Beyond p q) :
    (Corners.ofField f q.1 q.2 1).ends side.opposite = (Corners.ofField f p.1 p.2 1).ends side := by
  cases side <;> cases h <;> rfl

theorem differsAlong_beyond (h : side.Beyond p q) :
    (Corners.ofField f q.1 q.2 1).differsAlong side.opposite =
      (Corners.ofField f p.1 p.2 1).differsAlong side := by
  unfold Corners.differsAlong
  rw [ends_beyond h]

/-- Both cells at a side place its crossing at the same pixel. -/
theorem crossingAt_beyond (h : side.Beyond p q) (step : Int) :
    (Corners.ofField f q.1 q.2 1).crossingAt ⟨q.2 * step, q.1 * step⟩ step side.opposite =
      (Corners.ofField f p.1 p.2 1).crossingAt ⟨p.2 * step, p.1 * step⟩ step side := by
  have hnext : ∀ n : Nat, ((n + 1 : Nat) : Int) * step = n * step + step := by
    intro n
    rw [Int.natCast_succ, Int.add_mul, Int.one_mul]
  cases side <;> cases h <;>
    simp only [Side.opposite, Corners.crossingAt, Corners.top, Corners.bottom, Corners.left,
      Corners.right, hnext] <;> rfl

end Neighbours

/-- The pixels at which the segments of a fine cell end on one of its sides. -/
def cellEnds (f : Nat → Nat → Float) (step : Int) (p : Nat × Nat) (side : Side) : List Pixel :=
  (Corners.ofField f p.1 p.2 1).endsOn ⟨p.2 * step, p.1 * step⟩ step side

/-! ## What a refinement draws -/

namespace Job

variable {j : Job} {row col : Nat}

/-- The fine cells that end at points before `p` do not see a new value there. -/
theorem drawnInBlock_set {before after : List (Nat × Nat)} {p : Nat × Nat}
    (hsplit : blockPoints j.resolution.refinement row col = before ++ p :: after) {l : Lattice}
    (hcols : col + j.resolution.refinement < l.cols) (x : Float) :
    drawnInBlock (l.set p.1 p.2 x).get j.pixelStep row col before =
      drawnInBlock l.get j.pixelStep row col before := by
  have hblock := rowMajor_blockPoints j.resolution.refinement row col
  have hp : p ∈ blockPoints j.resolution.refinement row col :=
    mem_of_split hsplit
  obtain ⟨-, -, hpcol⟩ := mem_blockPoints.mp hp
  unfold drawnInBlock
  refine List.flatMap_congr fun q hq => ?_
  obtain ⟨hq, hinner⟩ := List.mem_filter.mp hq
  rw [decide_eq_true_eq] at hinner
  have hmem : q ∈ blockPoints j.resolution.refinement row col :=
    hsplit ▸ List.mem_append_left _ hq
  obtain ⟨⟨hrow, -⟩, hcol, hqcol⟩ := mem_blockPoints.mp hmem
  have hbefore : Before q p := before_of_mem hblock hsplit hq
  have hsame : ∀ i k, i ≤ q.1 → k ≤ q.2 → (l.set p.1 p.2 x).get i k = l.get i k := by
    intro i k hi hk
    refine Lattice.get_set_of_ne (fun heq => ?_) x
    obtain ⟨rfl, rfl⟩ := Lattice.index_inj (by omega) (by omega) heq
    unfold Before at hbefore
    omega
  unfold cellSegments Corners.ofField
  rw [hsame _ _ (by omega) (by omega), hsame _ _ (by omega) (by omega),
    hsame _ _ (by omega) (by omega), hsame _ _ (by omega) (by omega)]

/-- Within a coarse cell, what was drawn since `base` is what the lattice has in the fine cells
that end at some of its points. -/
def DrawnFrom (j : Job) (row col cols : Nat) (base : Array Segment) (points : List (Nat × Nat))
    (F : Frame) : Prop :=
  F.lattice.cols = cols ∧
    F.drawn = base ++ drawnInBlock F.lattice.get j.pixelStep row col points

variable {cols : Nat} (hcode : heightAfter? j.program.code 0 = some 1)
  (hcols : col + j.resolution.refinement < cols) (base : Array Segment)

include hcode hcols

theorem sampleOnce_drawnFrom {before after : List (Nat × Nat)} {p : Nat × Nat}
    (hsplit : blockPoints j.resolution.refinement row col = before ++ p :: after) :
    (j.sampleOnce p.1 p.2).Ensures (DrawnFrom j row col cols base before)
      (DrawnFrom j row col cols base before) := by
  refine sampleOnce_ensures (fun _ hF _ => hF) (sample_ensures fun F hF => ?_)
  obtain ⟨x, hx⟩ := (Program.exists_value_iff
    (j.axes.set F.store (j.pointAt p.1 p.2).x (j.pointAt p.1 p.2).y) _).mpr hcode
  obtain ⟨hwidth, hdrawn⟩ := hF
  refine ⟨x, hx, hwidth, ?_⟩
  show F.drawn = base ++ drawnInBlock (F.lattice.set p.1 p.2 x).get j.pixelStep row col before
  rw [drawnInBlock_set hsplit (by omega), hdrawn]

theorem visit_drawnFrom {before after : List (Nat × Nat)} {p : Nat × Nat}
    (hsplit : blockPoints j.resolution.refinement row col = before ++ p :: after) :
    (j.visit row col p.1 p.2).Ensures (DrawnFrom j row col cols base before)
      (DrawnFrom j row col cols base (before ++ [p])) := by
  rw [visit_eq]
  refine (sampleOnce_drawnFrom hcode hcols base hsplit).seq (closeCell_ensures ?_ ?_)
  · rintro hborder F ⟨hwidth, hdrawn⟩
    refine ⟨hwidth, ?_⟩
    rw [drawnInBlock_concat, if_pos hborder, List.append_nil]
    exact hdrawn
  · rintro hinner F ⟨hwidth, hdrawn⟩
    refine ⟨hwidth, ?_⟩
    show F.drawn ++ cellSegments F.lattice.get j.pixelStep (p.1 - 1) (p.2 - 1) =
      base ++ drawnInBlock F.lattice.get j.pixelStep row col (before ++ [p])
    rw [drawnInBlock_concat, if_neg hinner, hdrawn]
    exact Array.ext' (by simp only [Array.toList_appendList, List.append_assoc])

/-- A refinement draws what its fine cells have with the values that the lattice holds when it is
done. -/
theorem refine_draws :
    (j.refine row col).Ensures (fun F => F.lattice.cols = cols ∧ F.drawn = base)
      (fun F => F.drawn =
        base ++ blockSegments F.lattice.get j.resolution.refinement j.pixelStep row col) := by
  rw [refine_eq]
  have hloop : (j.visits row col (blockPoints j.resolution.refinement row col)).Ensures
      (DrawnFrom j row col cols base [])
      (DrawnFrom j row col cols base (blockPoints j.resolution.refinement row col)) :=
    Pass.ensures_forM _ fun done p rest hsplit => visit_drawnFrom hcode hcols base hsplit
  rintro F ⟨hwidth, hdrawn⟩
  have hstart : DrawnFrom j row col cols base [] F := ⟨hwidth, by rw [hdrawn]; rfl⟩
  obtain ⟨F', hrun, -, hF'⟩ := hloop F hstart
  rw [drawnInBlock_blockPoints] at hF'
  exact ⟨F', hrun, hF'⟩

end Job

/-- A refined cell has no gaps. A refinement goes through if the program has a value, and
draws the segments of its fine cells with the values that the lattice then holds. Whatever values
a lattice holds and whatever the step is, every end of a segment is the crossing of one side of
its cell. Two finite cells on either side of a side have the same ends there: one, at the same
pixel, if the values at the ends of the side differ in sign, and none if they do not. -/
theorem block_watertight (j : Job) (row col : Nat) :
    (∀ F : Frame, (∃ τ x, j.program.value τ = .ok x) →
      col + j.resolution.refinement < F.lattice.cols →
        ∃ F', j.refine row col F = .ok () F' ∧
          F'.drawn = F.drawn ++
            blockSegments F'.lattice.get j.resolution.refinement j.pixelStep row col) ∧
    ∀ (f : Nat → Nat → Float) (step : Int),
      (∀ p : Nat × Nat,
        let c := Corners.ofField f p.1 p.2 1
        let o : Pixel := ⟨p.2 * step, p.1 * step⟩
        cellSegments f step p.1 p.2 =
          c.joins.map fun (a, b) => ⟨c.crossingAt o step a, c.crossingAt o step b⟩) ∧
      ∀ (p q : Nat × Nat) (side : Side), side.Beyond p q →
        (Corners.ofField f p.1 p.2 1).allFinite = true →
        (Corners.ofField f q.1 q.2 1).allFinite = true →
          cellEnds f step q side.opposite = cellEnds f step p side ∧
            (cellEnds f step p side).length =
              if (Corners.ofField f p.1 p.2 1).differsAlong side = true then 1 else 0 := by
  refine ⟨fun F hvalue hcols => ?_, fun f step => ⟨fun p => ?_, fun p q side h hp hq => ?_⟩⟩
  · obtain ⟨τ, hτ⟩ := hvalue
    have hcode := (Program.exists_value_iff τ j.program).mp hτ
    exact Job.refine_draws hcode hcols F.drawn F ⟨rfl, rfl⟩
  · exact Corners.segments_eq_joins _ _ _
  · unfold cellEnds
    rw [Corners.endsOn_eq hp, Corners.endsOn_eq hq, differsAlong_beyond h, crossingAt_beyond h]
    refine ⟨rfl, ?_⟩
    split <;> rfl

/-- What a pass that goes through leaves, as a value that can be looked at. -/
theorem Pass.frame_eq_some {x : Pass} {F F' : Frame} (h : x F = .ok () F') :
    EStateM.run' (x >>= fun _ => get) F = some F' := by
  have hseen : (x >>= fun _ => get) F = .ok F' F' := by
    show EStateM.bind x (fun _ => get) F = _
    unfold EStateM.bind
    rw [h]
    rfl
  delta EStateM.run' EStateM.run
  rw [hseen]

/-- A coarse cell of four saddles. The values at its nine points are positive where row and column
are both even or both odd, and two saddles side by side meet at one pixel of the side between
them. -/
theorem block_watertight_saddle :
    ∃ (j : Job) (F F' : Frame), j.refine 0 0 F = .ok () F' ∧
      F'.drawn = F.drawn ++ blockSegments F'.lattice.get 2 j.pixelStep 0 0 ∧
      F.drawn.size = 0 ∧ F'.drawn.size = 8 ∧
      (Corners.ofField F'.lattice.get 0 0 1).pattern = 9 ∧
      (Corners.ofField F'.lattice.get 0 1 1).pattern = 6 ∧
      cellEnds F'.lattice.get j.pixelStep (0, 0) .right = [⟨5, 4⟩] ∧
      cellEnds F'.lattice.get j.pixelStep (0, 1) .left = [⟨5, 4⟩] := by
  let x : Variable := ⟨"x", .free, 0⟩
  let y : Variable := ⟨"y", .free, 1⟩
  -- changes its sign at one and at three, between the points of the lattice
  let saddle : Operator :=
    .called "saddle" 2 (onTwo fun a b => (a - 1) * (a - 3) * ((b - 1) * (b - 3)))
  let j : Job :=
    ⟨⟨x, y⟩, ⟨[.load x, .load y, .apply saddle]⟩, ⟨⟨0, 4, 0, 4⟩, 10, 10⟩, ⟨5, 2⟩⟩
  let F : Frame := ⟨⟨#[0.0, 0.0]⟩, .new, .blank 3 3, .zero, #[]⟩
  obtain ⟨hrefine, hends⟩ := block_watertight j 0 0
  have hvalue : ∃ τ v, j.program.value τ = .ok v :=
    ⟨F.store, (Program.exists_value_iff F.store j.program).mpr rfl⟩
  obtain ⟨F', hrun, hdrawn⟩ := hrefine F hvalue (by decide)
  have hrefined : ((EStateM.run' (j.refine 0 0 >>= fun _ => get) F).any fun F' =>
      let f := F'.lattice.get
      F'.drawn.size = 8 ∧ (Corners.ofField f 0 0 1).pattern = 9 ∧
        (Corners.ofField f 0 1 1).pattern = 6 ∧ (Corners.ofField f 0 0 1).allFinite = true ∧
        (Corners.ofField f 0 1 1).allFinite = true ∧
        cellEnds f j.pixelStep (0, 0) .right = [⟨5, 4⟩]) = true := by
    decide +kernel
  rw [Pass.frame_eq_some hrun] at hrefined
  obtain ⟨hsize, hleft, hright, hp, hq, hpixel⟩ := of_decide_eq_true hrefined
  obtain ⟨hsame, -⟩ := (hends F'.lattice.get j.pixelStep).2 (0, 0) (0, 1) .right rfl hp hq
  exact ⟨j, F, F', hrun, hdrawn, rfl, hsize, hleft, hright, hpixel, hsame.trans hpixel⟩

end ImplicitPlot.Contour

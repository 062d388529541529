import ImplicitPlot.Proofs.Contour.Enclosed
import ImplicitPlot.Proofs.Contour.SampledOnce
import ImplicitPlot.Proofs.Number.Negation

/-
  Contours of opposite fields. Where no value is zero the signs of a cell's corners are all
  exchanged, so the same sides are crossed, and at the same pixels, because the quotient that
  gives a crossing is that of two opposite numbers. All but two cases of the table of segments
  agree with their complements. The two are the saddles: there the same four crossings are joined
  the other way (`Corners.segments_neg`).

  Zero has no opposite here, as it counts as positive with either sign.
-/
namespace ImplicitPlot.Contour

open Number Symbols Expression

/-! ## Sides -/

theorem isPositive_neg {x : Float} (hfinite : x.isFinite = true) (hzero : (x == 0) = false) :
    isPositive (-x) = !isPositive x := by
  obtain ⟨v, hv⟩ := isFinite_iff.mp hfinite
  have hne : v ≠ 0 := by
    rw [ne_eq, ← isZero_iff_value? hv, isZero_iff, hzero]
    exact Bool.false_ne_true
  rw [Bool.eq_iff_iff, Bool.not_eq_true', Bool.eq_false_iff, ne_eq, isPositive_iff hv,
    isPositive_iff (value?_neg hv), Left.nonneg_neg_iff, not_le]
  exact ⟨fun h => lt_of_le_of_ne h hne, le_of_lt⟩

/-- Values that differ in sign have a difference that is not zero, also where it is infinite. -/
theorem Ends.not_isZero_difference {a b : Float} {size : ℤ} {u w : ℚ} (h : Ends a b size u w) :
    ¬IsZero (a - b).toModel.unpack := by
  obtain ⟨-, hd⟩ | ⟨-, hd⟩ := h.difference_rounds
  · rw [isZero_iff_value? hd]
    rcases h.nearest_difference with ⟨-, hpos⟩ | ⟨-, hneg⟩
    · exact hpos.ne'
    · exact hneg.ne
  · rw [hd]
    exact id

theorem crossing_neg {a b : Float} (h : ¬IsZero (a - b).toModel.unpack) (size : ℤ) :
    crossing (-a) (-b) size = crossing a b size := by
  unfold crossing
  rw [float_neg_mul, float_neg_sub_neg h, float_neg_div_neg]

/-! ## Cells -/

namespace Corners

/-- The corners with the opposite values. -/
def neg (c : Corners) : Corners := ⟨-c.topLeft, -c.topRight, -c.bottomLeft, -c.bottomRight⟩

/-- No value at a corner is zero. -/
def NonZero (c : Corners) : Prop :=
  ∀ x ∈ [c.topLeft, c.topRight, c.bottomLeft, c.bottomRight], (x == 0) = false

/-- All sides of a cell are crossed: opposite corners agree and neighbours differ. -/
def IsSaddle (c : Corners) : Prop := c.allFinite = true ∧ ∀ side, c.differsAlong side = true

/-- The pieces around the upper right and the lower left corner. -/
def aroundRising : List (Side × Side) := [(.top, .right), (.bottom, .left)]

/-- The pieces around the upper left and the lower right corner. -/
def aroundFalling : List (Side × Side) := [(.top, .left), (.bottom, .right)]

/-- The segments between the crossings of some pairs of sides. -/
def joining (c : Corners) (o : Pixel) (step : ℤ) (pairs : List (Side × Side)) : List Segment :=
  pairs.map fun (a, b) => ⟨c.crossingAt o step a, c.crossingAt o step b⟩

/-- Two lists of segments in a cell are the same, or in a saddle the two ways to join its four
crossings. -/
def Repaired (c : Corners) (o : Pixel) (step : ℤ) (s s' : List Segment) : Prop :=
  (¬c.IsSaddle → s' = s) ∧
    (c.IsSaddle →
      s = c.joining o step aroundRising ∧ s' = c.joining o step aroundFalling ∨
        s = c.joining o step aroundFalling ∧ s' = c.joining o step aroundRising)

theorem Repaired.length_eq {c : Corners} {o : Pixel} {step : ℤ} {s s' : List Segment}
    (h : c.Repaired o step s s') : s'.length = s.length := by
  by_cases hsaddle : c.IsSaddle
  · obtain ⟨rfl, rfl⟩ | ⟨rfl, rfl⟩ := h.2 hsaddle <;> rfl
  · rw [h.1 hsaddle]

variable {c : Corners} {o : Pixel} {step : ℤ}

theorem allFinite_neg (c : Corners) : c.neg.allFinite = c.allFinite := by
  simp only [allFinite, neg, isFinite_neg]

/-- All four signs are exchanged. -/
theorem isPositive_corners_neg (hfinite : c.allFinite = true) (hzero : c.NonZero) :
    (isPositive c.neg.topLeft = !isPositive c.topLeft ∧
      isPositive c.neg.topRight = !isPositive c.topRight) ∧
    isPositive c.neg.bottomLeft = !isPositive c.bottomLeft ∧
      isPositive c.neg.bottomRight = !isPositive c.bottomRight := by
  simp only [allFinite, Bool.and_eq_true] at hfinite
  obtain ⟨⟨⟨h₁, h₂⟩, h₃⟩, h₄⟩ := hfinite
  simp only [NonZero, List.forall_mem_cons] at hzero
  obtain ⟨hz₁, hz₂, hz₃, hz₄, -⟩ := hzero
  exact ⟨⟨isPositive_neg h₁ hz₁, isPositive_neg h₂ hz₂⟩, isPositive_neg h₃ hz₃,
    isPositive_neg h₄ hz₄⟩

theorem pattern_le (c : Corners) : c.pattern ≤ 15 := by
  unfold pattern
  have h := fun x => Bool.toNat_le (isPositive x)
  linarith [h c.topLeft, h c.topRight, h c.bottomLeft, h c.bottomRight]

theorem pattern_neg (hfinite : c.allFinite = true) (hzero : c.NonZero) :
    c.neg.pattern = 15 - c.pattern := by
  obtain ⟨⟨h₁, h₂⟩, h₃, h₄⟩ := isPositive_corners_neg hfinite hzero
  unfold pattern
  rw [h₁, h₂, h₃, h₄]
  cases isPositive c.topLeft <;> cases isPositive c.topRight <;>
    cases isPositive c.bottomLeft <;> cases isPositive c.bottomRight <;> rfl

theorem signsDiffer_neg (hzero : c.NonZero) : c.neg.signsDiffer = c.signsDiffer := by
  rw [← isCrossed_eq_signsDiffer, ← isCrossed_eq_signsDiffer]
  unfold isCrossed
  rw [allFinite_neg]
  cases hfinite : c.allFinite with
  | false => simp only [Bool.false_and]
  | true =>
    have hle := c.pattern_le
    rw [pattern_neg hfinite hzero, Bool.eq_iff_iff]
    simp only [Bool.true_and, Bool.and_eq_true, bne_iff_ne]
    omega

/-! ### Segments -/

theorem isSaddle_iff (hfinite : c.allFinite = true) :
    c.IsSaddle ↔ c.pattern = 6 ∨ c.pattern = 9 := by
  have hall : c.IsSaddle ↔ ∀ side, c.differsAlong side = true := and_iff_right hfinite
  have hsides : (∀ side, c.differsAlong side = true) ↔
      (c.differsAlong .top = true ∧ c.differsAlong .bottom = true) ∧
        c.differsAlong .left = true ∧ c.differsAlong .right = true :=
    ⟨fun h => ⟨⟨h .top, h .bottom⟩, h .left, h .right⟩,
      fun h side => by cases side <;> simp only [h]⟩
  rw [hall, hsides]
  simp only [differsAlong, ends, pattern]
  cases isPositive c.topLeft <;> cases isPositive c.topRight <;>
    cases isPositive c.bottomLeft <;> cases isPositive c.bottomRight <;> decide

/-- Apart from the two saddles, complements join the same sides. -/
theorem joined_complement {n : Nat} (hle : n ≤ 15) (h : ¬(n = 6 ∨ n = 9)) :
    joined (15 - n) = joined n := by
  revert n
  decide

/-- The sides that segments join are sides that are crossed. -/
theorem differsAlong_of_mem_joins {a b : Side} (h : (a, b) ∈ c.joins) :
    c.allFinite = true ∧ c.differsAlong a = true ∧ c.differsAlong b = true := by
  have hfinite : c.allFinite = true := by
    by_contra hfinite
    rw [joins, if_neg hfinite] at h
    cases h
  have hused : ∀ side ∈ [a, b], c.differsAlong side = true := fun side hside =>
    (mem_usedSides hfinite).mp (List.mem_flatMap.mpr ⟨(a, b), h, hside⟩)
  exact ⟨hfinite, hused a (by simp), hused b (by simp)⟩

theorem crossingAt_neg (hfinite : c.allFinite = true) {side : Side}
    (hdiffers : c.differsAlong side = true) :
    c.neg.crossingAt o step side = c.crossingAt o step side := by
  obtain ⟨u, w, h⟩ := exists_ends hfinite hdiffers (le_refl 1) (by norm_num)
  have hcrossing := crossing_neg h.not_isZero_difference step
  cases side with
  | top => exact congrArg (fun n => Pixel.mk (o.x + n) o.y) hcrossing
  | bottom => exact congrArg (fun n => Pixel.mk (o.x + n) (o.y + step)) hcrossing
  | left => exact congrArg (fun n => Pixel.mk o.x (o.y + n)) hcrossing
  | right => exact congrArg (fun n => Pixel.mk (o.x + step) (o.y + n)) hcrossing

theorem differsAlong_neg (hfinite : c.allFinite = true) (hzero : c.NonZero) (side : Side) :
    c.neg.differsAlong side = c.differsAlong side := by
  obtain ⟨⟨h₁, h₂⟩, h₃, h₄⟩ := isPositive_corners_neg hfinite hzero
  cases side <;> simp only [differsAlong, ends, h₁, h₂, h₃, h₄, Bool.not_bne_not]

/-- The segments of the opposite corners join the crossings of the cell itself. -/
theorem segments_neg_eq_joining (hzero : c.NonZero) :
    c.neg.segments o step = c.joining o step c.neg.joins := by
  rw [segments_eq_joins]
  refine List.map_congr_left fun p hp => ?_
  obtain ⟨hfinite, hstart, hstop⟩ := differsAlong_of_mem_joins (a := p.1) (b := p.2) hp
  rw [allFinite_neg] at hfinite
  rw [differsAlong_neg hfinite hzero] at hstart hstop
  dsimp only
  rw [crossingAt_neg hfinite hstart, crossingAt_neg hfinite hstop]

theorem segments_neg (hzero : c.NonZero) :
    c.Repaired o step (c.segments o step) (c.neg.segments o step) := by
  have hsegments : c.segments o step = c.joining o step c.joins := segments_eq_joins c o step
  rw [segments_neg_eq_joining hzero, hsegments]
  by_cases hfinite : c.allFinite = true
  · have hjoins : c.joins = joined c.pattern := if_pos hfinite
    have hjoins' : c.neg.joins = joined (15 - c.pattern) := by
      rw [joins, allFinite_neg, if_pos hfinite, pattern_neg hfinite hzero]
    rw [hjoins, hjoins', Repaired, isSaddle_iff hfinite]
    -- the patterns of the two saddles are each other's complements
    refine ⟨fun h => ?_, ?_⟩
    · rw [joined_complement c.pattern_le h]
    · rintro (h | h)
      · rw [h]
        exact Or.inl ⟨rfl, rfl⟩
      · rw [h]
        exact Or.inr ⟨rfl, rfl⟩
  · have hjoins : c.joins = [] := if_neg hfinite
    have hjoins' : c.neg.joins = [] := by rw [joins, allFinite_neg, if_neg hfinite]
    rw [hjoins, hjoins']
    exact ⟨fun _ => rfl, fun h => absurd h.1 hfinite⟩

end Corners

/-! ## Fields -/

/-- Two fields have opposite values at a point, and they are not zero. -/
def OppositeAt (f g : Nat → Nat → Float) (p : Nat × Nat) : Prop :=
  (f p.1 p.2 == 0) = false ∧ g p.1 p.2 = -f p.1 p.2

/-- The fine cells of the coarse cells that are crossed, in the order in which they are marched. -/
def marchedCells (f : Nat → Nat → Float) (r rows cols : Nat) : List (Nat × Nat) :=
  (crossedCells f r (coarseCells r rows cols)).flatMap fun c => fineCells r c.1 c.2

theorem fieldSegments_eq (f : Nat → Nat → Float) (r : Nat) (step : ℤ) (rows cols : Nat) :
    fieldSegments f r step rows cols =
      (marchedCells f r rows cols).flatMap fun c => cellSegments f step c.1 c.2 := by
  unfold marchedCells
  rw [List.flatMap_assoc]
  rfl

variable {f g : Nat → Nat → Float} {r rows cols : Nat}

theorem Corners.ofField_opposite {row col size : Nat}
    (h : ∀ p ∈ cornerPoints row col size, OppositeAt f g p) :
    (ofField f row col size).NonZero ∧ ofField g row col size = (ofField f row col size).neg := by
  simp only [cornerPoints, List.forall_mem_cons, OppositeAt] at h
  obtain ⟨⟨hz₁, h₁⟩, ⟨hz₂, h₂⟩, ⟨hz₃, h₃⟩, ⟨hz₄, h₄⟩, -⟩ := h
  constructor
  · simp only [NonZero, ofField, List.forall_mem_cons]
    exact ⟨hz₁, hz₂, hz₃, hz₄, fun x hx => by cases hx⟩
  · unfold ofField
    rw [h₁, h₂, h₃, h₄]
    rfl

theorem crossedCells_opposite (hr : 0 < r)
    (h : ∀ p ∈ coarsePoints r rows cols, OppositeAt f g p) :
    crossedCells g r (coarseCells r rows cols) = crossedCells f r (coarseCells r rows cols) := by
  refine List.filter_congr fun c hc => ?_
  have hcorners : ∀ p ∈ cornerPoints c.1 c.2 r, OppositeAt f g p := fun p hp =>
    h p (cornerPoints_coarse hr hc p hp)
  obtain ⟨hzero, hneg⟩ := Corners.ofField_opposite hcorners
  rw [hneg, Corners.signsDiffer_neg hzero]

/-- All corners of the cells that are marched are sampled. -/
theorem cornerPoints_marched {c : Nat × Nat} (hc : c ∈ marchedCells f r rows cols) :
    ∀ p ∈ cornerPoints c.1 c.2 1, p ∈ sampledPoints f r rows cols := by
  obtain ⟨d, hd, hfine⟩ := List.mem_flatMap.mp hc
  obtain ⟨hrow, hcol⟩ := mem_fineCells.mp hfine
  intro p hp
  refine mem_sampledPoints.mpr (Or.inr ⟨d, hd, ?_⟩)
  simp only [cornerPoints, List.mem_cons, List.not_mem_nil, or_false] at hp
  rcases hp with rfl | rfl | rfl | rfl <;> exact mem_blockPoints.mpr ⟨by omega, by omega⟩

/-- What two fields have in common that are opposite wherever one of them is sampled: the cells
that are crossed, the points that are sampled, and up to the saddles the segments of each cell. -/
theorem opposite_contours (hr : 0 < r) (h : ∀ p ∈ sampledPoints f r rows cols, OppositeAt f g p) :
    crossedCells g r (coarseCells r rows cols) = crossedCells f r (coarseCells r rows cols) ∧
    sampledPoints g r rows cols = sampledPoints f r rows cols ∧
    ∀ c ∈ marchedCells f r rows cols, ∀ step : ℤ,
      (Corners.ofField f c.1 c.2 1).Repaired ⟨c.2 * step, c.1 * step⟩ step
        (cellSegments f step c.1 c.2) (cellSegments g step c.1 c.2) := by
  have hcells := crossedCells_opposite hr fun p hp => h p (mem_sampledPoints.mpr (Or.inl hp))
  refine ⟨hcells, ?_, fun c hc step => ?_⟩
  · unfold sampledPoints
    rw [hcells]
  · have hcorners : ∀ p ∈ cornerPoints c.1 c.2 1, OppositeAt f g p := fun p hp =>
      h p (cornerPoints_marched hc p hp)
    obtain ⟨hzero, hneg⟩ := Corners.ofField_opposite hcorners
    unfold cellSegments
    rw [hneg]
    exact Corners.segments_neg hzero

/-! ## Traces -/

/-- Neither a value nor its opposite is the mark if its magnitude is not. -/
theorem ne_mark {x : Float} (h : (x.abs == unsampled) = false) :
    (x == unsampled) = false ∧ (-x == unsampled) = false := by
  have hbeq : ∀ y : Float, (y == unsampled) =
      (y.toModel.unpack.compare unsampled.toModel.unpack == some .eq) := fun _ => rfl
  rw [hbeq, unpack_abs] at h
  rw [hbeq, hbeq, unpack_neg]
  cases hx : x.toModel.unpack with
  | notANumber => exact ⟨rfl, rfl⟩
  | infinity s => cases s <;> exact ⟨rfl, rfl⟩
  | zero s => exact ⟨rfl, rfl⟩
  | finite s m e hm =>
    rw [hx] at h
    cases s with
    | positive => exact ⟨h, rfl⟩
    | negative => exact ⟨rfl, h⟩

/-- Once all coarse cells were inspected the tally has counted the points that are sampled. -/
theorem Job.Journaled.AccountAfter.evaluations_eq_card {j : Job} {σ : Store}
    {s : Frame × Journal}
    (h : AccountAfter j σ f rows cols (coarseCells j.resolution.refinement rows cols) s) :
    s.1.tally.evaluations = (sampledPoints f j.resolution.refinement rows cols).card := by
  obtain ⟨haccount, hsampled⟩ := h
  rw [haccount.evaluations_eq, ← List.toFinset_card_of_nodup haccount.nodup]
  congr 1
  ext p
  rw [List.mem_toFinset, mem_sampledPoints]
  exact hsampled p

/-- A trace of a field whose sampled values are not the mark draws the segments of the field, and
its tally counts them, the points that are sampled and the cells that are crossed. -/
theorem Tracer.trace_of_field {t : Tracer} {σ : Store} {r : Relation} {canvas : Canvas}
    {f : Nat → Nat → Float} (hf : (t.job r canvas).HasField σ f) (hvalid : r.isValid = true)
    (hresolution : t.resolution.check = .ok ()) :
    let refinement := t.resolution.refinement
    let rows := Lattice.pointsAcross t.resolution canvas.height
    let cols := Lattice.pointsAcross t.resolution canvas.width
    let segments := fieldSegments f refinement (t.job r canvas).pixelStep rows cols
    (∀ p ∈ sampledPoints f refinement rows cols, (f p.1 p.2 == unsampled) = false) →
      (t.trace σ r canvas).outcome = .ok segments.length ∧
      (t.trace σ r canvas).segments = segments.toArray ∧
      (t.trace σ r canvas).tracer.tally = ⟨segments.length,
        (sampledPoints f refinement rows cols).card,
        (crossedCells f refinement (coarseCells refinement rows cols)).length⟩ := by
  intro refinement rows cols segments hmark
  have hr : 0 < (t.job r canvas).resolution.refinement := refinement_pos hresolution
  obtain ⟨F, hrun, hF⟩ : ∃ F, (t.job r canvas).run rows cols (t.firstFrame σ canvas) = .ok () F ∧
      Job.Between (t.job r canvas) σ f rows cols (coarseCells refinement rows cols) F :=
    Job.run_traced hf hr _ (Traced.blank (t.job r canvas) σ f rows cols t.machine)
  have hend := Job.Journaled.run_account hf hr hmark (t.firstFrame σ canvas, .empty)
    ⟨Account.start (t.job r canvas) σ f rows cols t.machine, rfl⟩
  rw [Job.Journaled.run_eq_ok hrun] at hend
  obtain ⟨hafter⟩ := hend
  rw [trace_of_run hvalid hrun]
  refine ⟨congrArg Except.ok hF.count_eq, hF.drawn_eq, ?_⟩
  have htally : F.tally = ⟨F.tally.segments, F.tally.evaluations, F.tally.refinedCells⟩ := rfl
  show F.tally = _
  rw [htally, hF.count_eq, hafter.evaluations_eq_card, hafter.1.refined_eq]
  rfl

end ImplicitPlot.Contour

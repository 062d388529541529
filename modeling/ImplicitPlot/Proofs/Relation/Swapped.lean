import ImplicitPlot.Proofs.Contour.Opposite
import ImplicitPlot.Proofs.Expression.Context
import ImplicitPlot.Proofs.Relation.Splitting
import ImplicitPlot.Proofs.Symbols.Constants
import ImplicitPlot.Proofs.Symbols.Presets

/-
  Equations with their sides exchanged. The program of an equation subtracts the value of the
  right side from that of the left side, so exchanging the sides exchanges the terms of the
  subtraction (`values_swapped`). A difference of doubles that is not zero changes nothing but its
  sign then, so both traces work on opposite fields and draw the same contour. What the two draw
  in a saddle differs: which corners are cut off there depends on the signs.
-/
namespace ImplicitPlot.Relation

open Number Symbols Expression Contour

/-! ## Values -/

/-- What a text whose sides are known is compiled to. -/
theorem exists_programs {V : Vocabulary} {text : String} {s : Sides} {r : Relation}
    (hs : Sides.ofText? text.toList = some s) (h : ofText? V text = .ok r) :
    ∃ p q, Expression.compile V s.left = .ok p ∧ Expression.compile V s.right = .ok q ∧
      r = ⟨text, some s.comparison, (p ++ q).push (.apply V.subtraction)⟩ := by
  obtain ⟨s', p, q, hsplit, hleft, hright, rfl⟩ := ofText?_eq_ok_iff.mp h
  obtain rfl := hsplit.unique (Sides.ofText?_eq_some_iff.mp hs).1
  exact ⟨p, q, hleft, hright, rfl⟩

/-- Where the sides are joined by the subtraction of numbers, a relation and the one with its sides
exchanged have opposite differences as their values. -/
theorem values_swapped {V : Vocabulary} (hV : V.OperatorsSuit)
    (hminus : V.subtraction = Operator.subtraction) {text text' : String} {left right : List Char}
    {k : Comparison} {r r' : Relation} (hs : Sides.ofText? text.toList = some ⟨left, k, right⟩)
    (hs' : Sides.ofText? text'.toList = some ⟨right, k, left⟩) (h : ofText? V text = .ok r)
    (h' : ofText? V text' = .ok r') :
    (r.isValid = true ∧ r'.isValid = true) ∧
      ∃ a b : Store → Float, ∀ σ,
        r.program.value σ = .ok (a σ - b σ) ∧ r'.program.value σ = .ok (b σ - a σ) := by
  obtain ⟨p, q, hleft, hright, rfl⟩ := exists_programs hs h
  obtain ⟨q', p', hright', hleft', rfl⟩ := exists_programs hs' h'
  obtain rfl : p = p' := Except.ok.inj (hleft.symm.trans hleft')
  obtain rfl : q = q' := Except.ok.inj (hright.symm.trans hright')
  refine ⟨⟨rfl, rfl⟩, ?_⟩
  choose a b hp hq hvalue using value_of_sides hV hleft hright
  refine ⟨a, b, fun σ => ⟨?_, ?_⟩⟩
  · rw [hvalue σ, hminus]
    rfl
  · obtain ⟨y, x, hy, hx, hvalue'⟩ := value_of_sides hV hright hleft σ
    obtain rfl : y = b σ := Except.ok.inj (hy.symm.trans (hq σ))
    obtain rfl : x = a σ := Except.ok.inj (hx.symm.trans (hp σ))
    rw [hvalue', hminus]
    rfl

/-! ## Contours -/

/-- The fields of an equation and of the one with its sides exchanged are opposite where they are
not zero. -/
theorem exists_fields_swapped {R R' : Relation} {a b : Store → Float}
    (hvalues : ∀ σ, R.program.value σ = .ok (a σ - b σ) ∧ R'.program.value σ = .ok (b σ - a σ))
    (t : Tracer) (σ : Store) (canvas : Canvas) :
    ∃ f g : Nat → Nat → Float,
      (t.job R canvas).HasField σ f ∧ (t.job R' canvas).HasField σ g ∧
        ∀ row col, (f row col == 0) = false → g row col = -f row col := by
  let storeAt (row col : Nat) : Store :=
    let point := (t.job R canvas).pointAt row col
    t.axes.set σ point.x point.y
  refine ⟨fun row col => a (storeAt row col) - b (storeAt row col),
    fun row col => b (storeAt row col) - a (storeAt row col),
    fun row col => (hvalues (storeAt row col)).1, fun row col => (hvalues (storeAt row col)).2,
    fun row col hzero => float_sub_comm ?_⟩
  rw [isZero_iff, hzero]
  exact Bool.false_ne_true

/-- Exchanging the sides of an equation keeps its contour. In the standard vocabulary, if no value
that is sampled is zero or of the magnitude of the mark, a trace of `l=r` and a trace of `r=l`
sample as many points, refine as many cells and draw as many segments. Both draw the segments of
the same fine cells in the same order; those of a cell are equal, except that in a saddle the same
four crossings are joined the other way. -/
theorem trace_swapped (σ₀ σ : Store) {t : Tracer} (canvas : Canvas) {l r : String}
    {R R' : Relation}
    (hsplit : Sides.ofText? (l ++ "=" ++ r).toList = some ⟨l.toList, .equal, r.toList⟩)
    (hsplit' : Sides.ofText? (r ++ "=" ++ l).toList = some ⟨r.toList, .equal, l.toList⟩)
    (hR : ofText? (Vocabulary.standard σ₀).1 (l ++ "=" ++ r) = .ok R)
    (hR' : ofText? (Vocabulary.standard σ₀).1 (r ++ "=" ++ l) = .ok R')
    (hresolution : t.resolution.check = .ok ()) :
    ∃ f g : Nat → Nat → Float,
      (t.job R canvas).HasField σ f ∧ (t.job R' canvas).HasField σ g ∧
      let refinement := t.resolution.refinement
      let rows := Lattice.pointsAcross t.resolution canvas.height
      let cols := Lattice.pointsAcross t.resolution canvas.width
      let step := (t.job R canvas).pixelStep
      let cells := marchedCells f refinement rows cols
      let trace := t.trace σ R canvas
      let swapped := t.trace σ R' canvas
      (∀ p ∈ sampledPoints f refinement rows cols,
        (f p.1 p.2 == 0) = false ∧ ((f p.1 p.2).abs == unsampled) = false) →
        swapped.tracer.tally = trace.tracer.tally ∧
        trace.outcome = .ok trace.tracer.tally.segments ∧ swapped.outcome = trace.outcome ∧
        trace.segments = (cells.flatMap fun c => cellSegments f step c.1 c.2).toArray ∧
        swapped.segments = (cells.flatMap fun c => cellSegments g step c.1 c.2).toArray ∧
        ∀ c ∈ cells, (Corners.ofField f c.1 c.2 1).Repaired ⟨c.2 * step, c.1 * step⟩ step
          (cellSegments f step c.1 c.2) (cellSegments g step c.1 c.2) := by
  obtain ⟨⟨hvalid, hvalid'⟩, a, b, hvalues⟩ := values_swapped
    (Vocabulary.Reachable.standard σ₀).operators_suit (Preset.subtraction_standard σ₀)
    hsplit hsplit' hR hR'
  obtain ⟨f, g, hf, hg, hexchanged⟩ := exists_fields_swapped hvalues t σ canvas
  refine ⟨f, g, hf, hg, ?_⟩
  intro refinement rows cols step cells trace swapped hsampled
  have hr : 0 < refinement := Tracer.refinement_pos hresolution
  have hopposite : ∀ p ∈ sampledPoints f refinement rows cols, OppositeAt f g p := fun p hp =>
    ⟨(hsampled p hp).1, hexchanged p.1 p.2 (hsampled p hp).1⟩
  obtain ⟨hcrossed, hpoints, hrepaired⟩ := opposite_contours hr hopposite
  have hmark : ∀ p ∈ sampledPoints f refinement rows cols, (f p.1 p.2 == unsampled) = false :=
    fun p hp => (ne_mark (hsampled p hp).2).1
  have hmark' : ∀ p ∈ sampledPoints g refinement rows cols, (g p.1 p.2 == unsampled) = false := by
    intro p hp
    rw [hpoints] at hp
    rw [(hopposite p hp).2]
    exact (ne_mark (hsampled p hp).2).2
  obtain ⟨houtcome, hsegments, htally⟩ := Tracer.trace_of_field hf hvalid hresolution hmark
  obtain ⟨houtcome', hsegments', htally'⟩ := Tracer.trace_of_field hg hvalid' hresolution hmark'
  -- the step does not depend on the program
  have hstep : (t.job R' canvas).pixelStep = step := rfl
  rw [hstep] at houtcome' hsegments' htally'
  have hfield : fieldSegments f refinement step rows cols =
      cells.flatMap fun c => cellSegments f step c.1 c.2 := fieldSegments_eq f refinement step rows cols
  have hfield' : fieldSegments g refinement step rows cols =
      cells.flatMap fun c => cellSegments g step c.1 c.2 := by
    have hcells : marchedCells g refinement rows cols = cells := by
      unfold marchedCells
      rw [hcrossed]
      rfl
    rw [fieldSegments_eq, hcells]
  have hlength : (fieldSegments g refinement step rows cols).length =
      (fieldSegments f refinement step rows cols).length := by
    rw [hfield, hfield', List.length_flatMap, List.length_flatMap]
    exact congrArg List.sum (List.map_congr_left fun c hc => (hrepaired c hc step).length_eq)
  refine ⟨?_, ?_, ?_, ?_, ?_, fun c hc => hrepaired c hc step⟩
  · rw [htally, htally', hpoints, hcrossed, hlength]
  · rw [houtcome, htally]
  · rw [houtcome, houtcome', hlength]
  · rw [hsegments, hfield]
  · rw [hsegments', hfield']

/-- The diagonal over two coarse cells that share a side, in a window in which no point of the
lattice is on it. -/
theorem trace_swapped_diagonal :
    ∃ (t : Tracer) (σ : Store) (canvas : Canvas) (R R' : Relation) (f : Nat → Nat → Float),
      ofText? (Vocabulary.standard .empty).1 "y=x" = .ok R ∧
      ofText? (Vocabulary.standard .empty).1 "x=y" = .ok R' ∧
      t.resolution.check = .ok () ∧ (t.job R canvas).HasField σ f ∧
      (∀ p ∈ sampledPoints f 2 3 5, (f p.1 p.2 == 0) = false ∧
        ((f p.1 p.2).abs == unsampled) = false) ∧
      (t.trace σ R canvas).tracer.tally = ⟨5, 15, 2⟩ ∧
      (t.trace σ R' canvas).tracer.tally = (t.trace σ R canvas).tracer.tally := by
  let x : Variable := ⟨"x", .free, 2⟩
  let y : Variable := ⟨"y", .free, 3⟩
  let t : Tracer := ⟨⟨x, y⟩, ⟨5, 2⟩, .empty, .new, .zero⟩
  let canvas : Canvas := ⟨⟨-1, 1, -0.7, 0.9⟩, 20, 10⟩
  let σ : Store := ⟨#[3.141592653589793, 2.718281828459045, 0.0, 0.0]⟩
  let R : Relation := ⟨"y=x", some .equal, ⟨[.load y, .load x, .apply Operator.subtraction]⟩⟩
  let R' : Relation := ⟨"x=y", some .equal, ⟨[.load x, .load y, .apply Operator.subtraction]⟩⟩
  have hx : Expression.compile (Vocabulary.standard .empty).1 ['x'] = .ok ⟨[.load x]⟩ :=
    Expression.compile_variable (by decide) (by decide +kernel) (by decide +kernel) (by decide +kernel)
  have hy : Expression.compile (Vocabulary.standard .empty).1 ['y'] = .ok ⟨[.load y]⟩ :=
    Expression.compile_variable (by decide) (by decide +kernel) (by decide +kernel) (by decide +kernel)
  have hsplit : Sides.ofText? ("y" ++ "=" ++ "x").toList = some ⟨"y".toList, .equal, "x".toList⟩ :=
    rfl
  have hsplit' : Sides.ofText? ("x" ++ "=" ++ "y").toList = some ⟨"x".toList, .equal, "y".toList⟩ :=
    rfl
  have hR : ofText? (Vocabulary.standard .empty).1 ("y" ++ "=" ++ "x") = .ok R :=
    ofText?_eq_ok_iff.mpr ⟨_, _, _, (Sides.ofText?_eq_some_iff.mp hsplit).1, hy, hx,
      by rw [Preset.subtraction_standard]; rfl⟩
  have hR' : ofText? (Vocabulary.standard .empty).1 ("x" ++ "=" ++ "y") = .ok R' :=
    ofText?_eq_ok_iff.mpr ⟨_, _, _, (Sides.ofText?_eq_some_iff.mp hsplit').1, hx, hy,
      by rw [Preset.subtraction_standard]; rfl⟩
  have hvalues : ∀ row < 3, ∀ col < 5,
      (((t.job R canvas).pointAt row col).y - ((t.job R canvas).pointAt row col).x == 0) = false ∧
      ((((t.job R canvas).pointAt row col).y - ((t.job R canvas).pointAt row col).x).abs ==
        unsampled) = false := by
    decide +kernel
  have htally : (t.trace σ R canvas).tracer.tally = ⟨5, 15, 2⟩ := by decide +kernel
  obtain ⟨f, g, hf, -, hswapped⟩ :=
    trace_swapped .empty σ (t := t) canvas hsplit hsplit' hR hR' rfl
  have hrows : Lattice.pointsAcross t.resolution canvas.height = 3 := by decide
  have hcols : Lattice.pointsAcross t.resolution canvas.width = 5 := by decide
  have hsampled : ∀ p ∈ sampledPoints f 2 3 5,
      (f p.1 p.2 == 0) = false ∧ ((f p.1 p.2).abs == unsampled) = false := by
    intro p hp
    obtain ⟨hrow, hcol⟩ := sampledPoints_inside (by decide) p hp
    have hfield : ((t.job R canvas).pointAt p.1 p.2).y - ((t.job R canvas).pointAt p.1 p.2).x =
        f p.1 p.2 := Except.ok.inj (hf p.1 p.2)
    rw [← hfield]
    exact hvalues p.1 hrow p.2 hcol
  dsimp only at hswapped
  rw [hrows, hcols] at hswapped
  exact ⟨t, σ, canvas, R, R', f, hR, hR', rfl, hf, hsampled, htally, (hswapped hsampled).1⟩

end ImplicitPlot.Relation

import ImplicitPlot.Proofs.Contour.Lockstep
import ImplicitPlot.Proofs.Contour.Sampled
import ImplicitPlot.Proofs.Expression.Running
import ImplicitPlot.Proofs.Symbols.Axes

/-
  A trace does not show what its tracer did before. `Twins` relates two frames that differ at most
  in their machines and in the cells of the axes: a sample sets both axes before it looks at the
  store, and runs its program on a cleared stack, so twins stay twins, whether the program has a
  value there or not. Every trace of a valid relation starts with a blank lattice and an empty
  tally, so two tracers with the same axes and resolution start as twins.

  The same rule, with the relation of a frame to itself, says that a trace spares all cells but
  those of the axes (`Tracer.spares_trace`), and where it leaves these (`Tracer.store_trace`).
-/
namespace ImplicitPlot.Contour

open Symbols Expression

/-! ## Frames in two runs -/

/-- Two frames that are equal but for their machines and what the axes are set to. -/
structure Twins (axes : Vocabulary.Axes) (F G : Frame) : Prop where
  read_eq : ∀ x y v, (axes.set F.store x y).read v = (axes.set G.store x y).read v
  lattice_eq : F.lattice = G.lattice
  tally_eq : F.tally = G.tally
  drawn_eq : F.drawn = G.drawn

namespace Twins

variable {j : Job} {F G : Frame}

theorem read_set_eq (h : Twins j.axes F G) (p : Point) (x y : Float) (v : Variable) :
    (j.axes.set (j.axes.set F.store p.x p.y) x y).read v =
      (j.axes.set (j.axes.set G.store p.x p.y) x y).read v := by
  rw [Vocabulary.Axes.set_set, Vocabulary.Axes.set_set, h.read_eq]

theorem moveTo (h : Twins j.axes F G) (row col : Nat) :
    Twins j.axes (j.moveTo row col F) (j.moveTo row col G) :=
  ⟨h.read_set_eq _, h.lattice_eq, h.tally_eq, h.drawn_eq⟩

theorem enter (h : Twins j.axes F G) (row col : Nat) (x : Float) :
    Twins j.axes (j.enter row col x F) (j.enter row col x G) where
  read_eq := h.read_set_eq _
  lattice_eq := congrArg (·.set row col x) h.lattice_eq
  tally_eq := congrArg (fun t : Tally => { t with evaluations := t.evaluations + 1 }) h.tally_eq
  drawn_eq := h.drawn_eq

theorem draw (h : Twins j.axes F G) (row col : Nat) :
    Twins j.axes (j.draw row col F) (j.draw row col G) := by
  have hsegments : j.fineSegments F.lattice row col = j.fineSegments G.lattice row col := by
    rw [h.lattice_eq]
  refine ⟨h.read_eq, h.lattice_eq, ?_, ?_⟩
  · unfold Job.draw
    dsimp only
    rw [hsegments, h.tally_eq]
  · unfold Job.draw
    dsimp only
    rw [hsegments, h.drawn_eq]

theorem countRefined (h : Twins j.axes F G) :
    Twins j.axes (Job.countRefined F) (Job.countRefined G) where
  read_eq := h.read_eq
  lattice_eq := h.lattice_eq
  tally_eq := congrArg (fun t : Tally => { t with refinedCells := t.refinedCells + 1 }) h.tally_eq
  drawn_eq := h.drawn_eq

end Twins

namespace Job

/-- All parts of a trace keep twins. -/
theorem keeps_twins (j : Job) : j.Keeps (Twins j.axes) where
  lattice_eq _ _ h := h.lattice_eq
  sample row col := by
    refine sample_lockstep (fun F G h => ?_) (fun x F G h => h.enter row col x)
      fun F G h => h.moveTo row col
    have hread := h.read_eq (j.pointAt row col).x (j.pointAt row col).y
    exact congrArg Prod.fst (Machine.evaluate_congr hread Machine.new Machine.new j.program)
  draw row col _ _ h := h.draw row col
  countRefined _ _ h := h.countRefined

/-- All parts of a trace spare the cells of other variables. -/
theorem keeps_spared (j : Job) (σ : Store) :
    j.Keeps fun F G => F = G ∧ j.axes.Spares σ F.store where
  lattice_eq _ _ h := congrArg Frame.lattice h.1
  sample row col := by
    refine sample_lockstep ?_ ?_ ?_
    · rintro F G ⟨rfl, -⟩
      rfl
    · rintro x F G ⟨rfl, h⟩
      exact ⟨rfl, h.set _ _⟩
    · rintro F G ⟨rfl, h⟩
      exact ⟨rfl, h.set _ _⟩
  draw row col := by
    rintro F G ⟨rfl, h⟩
    exact ⟨rfl, h⟩
  countRefined := by
    rintro F G ⟨rfl, h⟩
    exact ⟨rfl, h⟩

/-- The store of a frame is one that a trace started from, or that with the axes at a point of the
lattice. -/
def MovedFrom (j : Job) (σ : Store) (F : Frame) : Prop :=
  F.store = σ ∨ ∃ row col, F.store = j.axes.set σ (j.pointAt row col).x (j.pointAt row col).y

/-- Wherever the axes were, they are at a point of the lattice after a sample. -/
theorem MovedFrom.axes_set {j : Job} {σ : Store} {F : Frame} (h : j.MovedFrom σ F) (x y : Float) :
    j.axes.set F.store x y = j.axes.set σ x y := by
  obtain h | ⟨row, col, h⟩ := h
  · rw [h]
  · rw [h, Vocabulary.Axes.set_set]

/-- All parts of a trace write the axes alone, and only with points of the lattice. -/
theorem keeps_movedFrom (j : Job) (σ : Store) :
    j.Keeps fun F G => F = G ∧ j.MovedFrom σ F where
  lattice_eq _ _ h := congrArg Frame.lattice h.1
  sample row col := by
    refine sample_lockstep ?_ ?_ ?_
    · rintro F G ⟨rfl, -⟩
      rfl
    · rintro x F G ⟨rfl, h⟩
      exact ⟨rfl, Or.inr ⟨row, col, h.axes_set _ _⟩⟩
    · rintro F G ⟨rfl, h⟩
      exact ⟨rfl, Or.inr ⟨row, col, h.axes_set _ _⟩⟩
  draw row col := by
    rintro F G ⟨rfl, h⟩
    exact ⟨rfl, h⟩
  countRefined := by
    rintro F G ⟨rfl, h⟩
    exact ⟨rfl, h⟩

end Job

/-! ## Tracers -/

namespace Tracer

/-- What a tracer makes of the end of a run. -/
def conclude (t : Tracer) (r : Relation) : EStateM.Result EvalError Frame Unit → Trace
  | .ok () F =>
    ⟨.ok F.tally.segments, F.drawn,
      { t with lattice := F.lattice, machine := F.machine, tally := F.tally }, F.store, r⟩
  | .error e F =>
    ⟨.error (.evaluation e), F.drawn,
      { t with lattice := F.lattice, machine := F.machine, tally := F.tally }, F.store,
      r.invalidate⟩

/-- The run of a trace of a valid relation. -/
def runOver (t : Tracer) (σ : Store) (r : Relation) (canvas : Canvas) :
    EStateM.Result EvalError Frame Unit :=
  (t.job r canvas).run (Lattice.pointsAcross t.resolution canvas.height)
    (Lattice.pointsAcross t.resolution canvas.width) (t.firstFrame σ canvas)

theorem trace_eq {r : Relation} (hr : r.isValid = true) (t : Tracer) (σ : Store)
    (canvas : Canvas) : t.trace σ r canvas = t.conclude r (t.runOver σ r canvas) := by
  have hvalid : ¬(!r.isValid) = true := by
    rw [hr]
    exact Bool.false_ne_true
  unfold trace
  rw [if_neg hvalid]
  rfl

theorem trace_invalid {r : Relation} (hr : ¬r.isValid = true) (t : Tracer) (σ : Store)
    (canvas : Canvas) : t.trace σ r canvas = ⟨.error .invalidRelation, #[], t, σ, r⟩ := by
  unfold trace
  rw [Bool.eq_false_iff.mpr hr]
  rfl

/-- A trace keeps the axes and the resolution of its tracer. -/
theorem trace_settings (t : Tracer) (σ : Store) (r : Relation) (canvas : Canvas) :
    (t.trace σ r canvas).tracer.axes = t.axes ∧
      (t.trace σ r canvas).tracer.resolution = t.resolution := by
  by_cases hr : r.isValid = true
  · rw [trace_eq hr]
    cases t.runOver σ r canvas <;> exact ⟨rfl, rfl⟩
  · rw [trace_invalid hr]
    exact ⟨rfl, rfl⟩

/-- A trace leaves all cells alone but those of the axes, also when it fails. -/
theorem spares_trace (t : Tracer) (σ : Store) (r : Relation) (canvas : Canvas) :
    t.axes.Spares σ (t.trace σ r canvas).store := by
  by_cases hr : r.isValid = true
  · rw [trace_eq hr]
    have hend := ((t.job r canvas).keeps_spared σ).run
      (Lattice.pointsAcross t.resolution canvas.height)
      (Lattice.pointsAcross t.resolution canvas.width) (t.firstFrame σ canvas) _
      ⟨rfl, Vocabulary.Axes.Spares.refl t.axes σ⟩
    unfold runOver
    generalize (t.job r canvas).run _ _ _ = result at hend
    cases hend with
    | ok h => exact h.2
    | error h => exact h.2
  · rw [trace_invalid hr]
    exact Vocabulary.Axes.Spares.refl t.axes σ

/-- A trace leaves the store as it was, or with the axes at a point of the lattice. -/
theorem store_trace (t : Tracer) (σ : Store) (r : Relation) (canvas : Canvas) :
    (t.trace σ r canvas).store = σ ∨ ∃ row col, (t.trace σ r canvas).store =
      t.axes.set σ ((t.job r canvas).pointAt row col).x ((t.job r canvas).pointAt row col).y := by
  by_cases hr : r.isValid = true
  · rw [trace_eq hr]
    have hend := ((t.job r canvas).keeps_movedFrom σ).run
      (Lattice.pointsAcross t.resolution canvas.height)
      (Lattice.pointsAcross t.resolution canvas.width) (t.firstFrame σ canvas) _
      ⟨rfl, Or.inl rfl⟩
    unfold runOver
    generalize (t.job r canvas).run _ _ _ = result at hend
    cases hend with
    | ok h => exact h.2
    | error h => exact h.2
  · rw [trace_invalid hr]
    exact Or.inl rfl

/-- Two tracers with the same settings run over the same relation alike. -/
theorem runOver_alike {t t' : Tracer} (haxes : t.axes = t'.axes)
    (hresolution : t.resolution = t'.resolution) {σ τ : Store}
    (hστ : t'.axes.AgreeElsewhere σ τ) (r : Relation) (canvas : Canvas) :
    Pass.Alike (Twins t'.axes) (t.runOver σ r canvas) (t'.runOver τ r canvas) := by
  have hjob : t.job r canvas = t'.job r canvas := by
    unfold job
    rw [haxes, hresolution]
  unfold runOver
  rw [hjob, hresolution]
  refine (t'.job r canvas).keeps_twins.run _ _ _ _ ⟨hστ.read_set, ?_, rfl, rfl⟩
  unfold firstFrame
  rw [hresolution]

/-- A tracer with some axes and resolution after any traces of any relations. -/
inductive Used (axes : Vocabulary.Axes) (resolution : Resolution) : Tracer → Prop where
  | new {t : Tracer} (h : Tracer.new axes resolution = .ok t) : Used axes resolution t
  | trace {t : Tracer} (h : Used axes resolution t) (σ : Store) (r : Relation) (canvas : Canvas) :
      Used axes resolution (t.trace σ r canvas).tracer

theorem Used.settings {axes : Vocabulary.Axes} {resolution : Resolution} {t : Tracer}
    (h : Used axes resolution t) : t.axes = axes ∧ t.resolution = resolution := by
  induction h with
  | new h =>
    unfold Tracer.new at h
    cases hcheck : resolution.check with
    | error e => rw [hcheck] at h; cases h
    | ok u => rw [hcheck] at h; cases h; exact ⟨rfl, rfl⟩
  | trace _ σ r canvas ih =>
    obtain ⟨haxes, hresolution⟩ := trace_settings _ σ r canvas
    exact ⟨haxes.trans ih.1, hresolution.trans ih.2⟩

/-- No history shows in a trace. Take two tracers with the same axes and resolution, each after
any traces of any relations over any canvases, and two stores that differ at most in what the axes
are set to. A valid relation then has the same outcome, the same segments in the same order, the
same tally, the same values over the lattice and the same validity afterwards in both. A trace
changes no cell but those of the axes. -/
theorem trace_forgets_history {axes : Vocabulary.Axes} {resolution : Resolution}
    {t t' : Tracer} (ht : Used axes resolution t) (ht' : Used axes resolution t') (r : Relation)
    (canvas : Canvas) :
    (∀ σ τ : Store, axes.AgreeElsewhere σ τ → r.isValid = true →
      (t.trace σ r canvas).outcome = (t'.trace τ r canvas).outcome ∧
      (t.trace σ r canvas).segments = (t'.trace τ r canvas).segments ∧
      (t.trace σ r canvas).tracer.tally = (t'.trace τ r canvas).tracer.tally ∧
      (t.trace σ r canvas).tracer.lattice = (t'.trace τ r canvas).tracer.lattice ∧
      (t.trace σ r canvas).relation = (t'.trace τ r canvas).relation) ∧
    ∀ σ : Store, axes.Spares σ (t.trace σ r canvas).store := by
  obtain ⟨rfl, rfl⟩ := ht'.settings
  obtain ⟨haxes, hresolution⟩ := ht.settings
  refine ⟨fun σ τ hστ hr => ?_, fun σ => haxes ▸ t.spares_trace σ r canvas⟩
  have hend := runOver_alike haxes hresolution hστ r canvas
  rw [trace_eq hr, trace_eq hr]
  generalize t.runOver σ r canvas = end₁, t'.runOver τ r canvas = end₂ at hend
  cases hend with
  | ok h =>
    exact ⟨congrArg (fun n : Tally => Except.ok n.segments) h.tally_eq, h.drawn_eq, h.tally_eq,
      h.lattice_eq, rfl⟩
  | error h => exact ⟨rfl, h.drawn_eq, h.tally_eq, h.lattice_eq, rfl⟩

/-- A new tracer, and one whose last trace failed with its axes elsewhere, trace `x - a` alike. -/
theorem trace_forgets_history_failure :
    ∃ (axes : Vocabulary.Axes) (t t' : Tracer) (σ τ : Store) (r bad : Relation)
      (canvas : Canvas), Used axes ⟨1, 1⟩ t ∧ Used axes ⟨1, 1⟩ t' ∧ axes.AgreeElsewhere σ τ ∧
      (t.trace σ bad canvas).outcome = .error (.evaluation (.unbalanced 0)) ∧
      t' = (t.trace σ bad canvas).tracer ∧ r.isValid = true ∧
      (t.trace σ r canvas).outcome = (t'.trace τ r canvas).outcome ∧
      (t.trace σ r canvas).segments = (t'.trace τ r canvas).segments ∧
      (t.trace σ r canvas).tracer.tally = (t'.trace τ r canvas).tracer.tally ∧
      (t.trace σ r canvas).tracer.lattice = (t'.trace τ r canvas).tracer.lattice ∧
      (t.trace σ r canvas).relation = (t'.trace τ r canvas).relation ∧
      axes.Spares σ (t.trace σ r canvas).store := by
  let axes : Vocabulary.Axes := ⟨⟨"x", .free, 0⟩, ⟨"y", .free, 1⟩⟩
  let t : Tracer := ⟨axes, ⟨1, 1⟩, .empty, .new, .zero⟩
  let σ : Store := ⟨#[0.0, 0.0, 7.0]⟩
  let τ : Store := ⟨#[3.0, -1.0, 7.0]⟩
  let r : Relation := ⟨"x = a", some .equal,
    ⟨[.load axes.x, .load ⟨"a", .free, 2⟩, .apply Operator.subtraction]⟩⟩
  let bad : Relation := ⟨"=", some .equal, .empty⟩
  let canvas : Canvas := ⟨.default, 1, 1⟩
  have ht : Used axes ⟨1, 1⟩ t := .new rfl
  have ht' : Used axes ⟨1, 1⟩ (t.trace σ bad canvas).tracer := ht.trace σ bad canvas
  have hστ : axes.AgreeElsewhere σ τ := by
    refine ⟨by decide, by decide, fun v hv => ?_⟩
    obtain ⟨name, kind, cell⟩ := v
    match cell with
    | 0 => exact absurd (Or.inl ⟨rfl, rfl⟩) hv
    | 1 => exact absurd (Or.inr ⟨rfl, rfl⟩) hv
    | 2 => rfl
    | n + 3 => rfl
  have hfailed : (t.trace σ bad canvas).outcome = .error (.evaluation (.unbalanced 0)) := by
    -- the job is written out because the number of points is not computed through names
    have hrun : ∀ F, ∃ F', Job.run ⟨⟨⟨"x", .free, 0⟩, ⟨"y", .free, 1⟩⟩, .empty,
        ⟨.default, 1, 1⟩, ⟨1, 1⟩⟩ (Lattice.pointsAcross ⟨1, 1⟩ 1)
          (Lattice.pointsAcross ⟨1, 1⟩ 1) F = .error (.unbalanced 0) F' := fun F => ⟨_, rfl⟩
    obtain ⟨F', hF'⟩ := hrun (t.firstFrame σ canvas)
    have hrunOver : t.runOver σ bad canvas = .error (.unbalanced 0) F' := hF'
    rw [trace_eq rfl, hrunOver]
    rfl
  obtain ⟨hsame, hspares⟩ := trace_forgets_history ht ht' r canvas
  obtain ⟨houtcome, hsegments, htally, hlattice, hrelation⟩ := hsame σ τ hστ rfl
  exact ⟨axes, t, _, σ, τ, r, bad, canvas, ht, ht', hστ, hfailed, rfl, rfl, houtcome, hsegments,
    htally, hlattice, hrelation, hspares σ⟩

end Tracer

end ImplicitPlot.Contour

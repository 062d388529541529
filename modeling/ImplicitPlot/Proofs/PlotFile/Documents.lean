import ImplicitPlot.Proofs.Drawing.WellFormed
import ImplicitPlot.Proofs.PlotFile.Groups

/-
  Plots as documents. What is drawn of a plot without a grid is a picture, with a group for each
  relation that compiles and its text as title (`exists_picture`). The document of such a plot is
  therefore read back as what was drawn, and where the plot names no constants of its own it is well
  formed unless a relation is written with a vertical tab or a form feed (`isWellFormed_draw_iff`).
-/
namespace ImplicitPlot

open Symbols Contour Drawing Markup

theorem Drawing.colour_mem_palette (i : Nat) : colour i ∈ palette := by
  have hlt : i % palette.length < palette.length := Nat.mod_lt i (by decide)
  rw [colour, List.getD_eq_getElem _ _ hlt]
  exact List.getElem_mem hlt

namespace PlotFile

/-- The groups of relations are whole, and titled with the texts of the relations. -/
theorem exists_groups (canvas : Canvas) (rs : List Relation) (i : Nat) (t : Tracer) (σ : Store) :
    ∃ gs : List RelationGroup, groups canvas i t σ rs = gs.flatMap (·.marks) ∧
      gs.map RelationGroup.title = rs.map (·.text) := by
  induction rs generalizing i t σ with
  | nil => exact ⟨[], rfl, rfl⟩
  | cons r rs ih =>
    let g : RelationGroup :=
      ⟨r.text, ⟨colour i, colour_mem_palette i⟩, (t.trace σ r canvas).segments.toList⟩
    obtain ⟨gs, hgs, htitles⟩ := ih (i + 1) (t.trace σ r canvas).tracer (t.trace σ r canvas).store
    refine ⟨g :: gs, ?_, congrArg (r.text :: ·) htitles⟩
    rw [groups, hgs, List.flatMap_cons, RelationGroup.marks, List.cons_append, List.cons_append,
      List.append_assoc, List.singleton_append]

/-- Where a plot is drawn, its settings are in order and its constants can be registered. -/
theorem check_of_draw {p : PlotFile} {withGrid : Bool} {d : Drawing}
    (h : p.draw withGrid = .ok d) : p.check = .ok () ∧ p.environment.1 = .ok () := by
  unfold draw at h
  cases hcheck : p.check with
  | error e =>
    rw [hcheck] at h
    cases h
  | ok u =>
    refine ⟨rfl, ?_⟩
    rw [hcheck] at h
    simp only [Except.mapError, bind, Except.bind] at h
    split at h
    · cases h
    · cases hregistered : p.environment.1 with
      | ok u => rfl
      | error e =>
        unfold environment at hregistered
        rw [hregistered] at h
        cases h

/-- The drawing of a plot without a grid is that of a picture. -/
theorem exists_picture {p : PlotFile} {d : Drawing} (h : p.draw false = .ok d) :
    ∃ picture : Picture, d = picture.drawing ∧ picture.width = p.width ∧
      picture.height = p.height ∧
      picture.groups.map RelationGroup.title = p.relations.filter p.compiles := by
  obtain ⟨hcheck, hconstants⟩ := check_of_draw h
  obtain ⟨t, htracer⟩ :
      ∃ t, Tracer.new ⟨⟨"x", .free, 2⟩, ⟨"y", .free, 3⟩⟩ p.resolution = .ok t := by
    rw [Tracer.new, check_resolution hcheck]
    exact ⟨_, rfl⟩
  rw [draw_eq hcheck hconstants p.environment_hasAxes.axes_eq htracer] at h
  obtain ⟨gs, hgs, htitles⟩ := exists_groups p.canvas
    (compileAll p.environment.2.1 p.relations) 0 t p.environment.2.2
  rw [map_text_compileAll] at htitles
  refine ⟨⟨p.width, p.height, gs⟩, ?_, rfl, rfl, htitles⟩
  split at h
  · cases h
  · split at h
    · cases h
    · rw [← Except.ok.inj h, hgs]
      rfl

/-- The document of a plot without a grid is read as what was drawn. -/
theorem readPicture?_draw {p : PlotFile} {d : Drawing} (h : p.draw false = .ok d) :
    ∃ picture : Picture, readPicture? d.text = some picture ∧ picture.drawing = d ∧
      picture.groups.map RelationGroup.title = p.relations.filter p.compiles := by
  obtain ⟨picture, rfl, -, -, htitles⟩ := exists_picture h
  exact ⟨picture, picture.readPicture?_drawing, rfl, htitles⟩

/-- A plot with the names of the standard vocabulary alone makes a well-formed document unless a
relation that is drawn holds a vertical tab or a form feed. -/
theorem isWellFormed_draw_iff {p : PlotFile} {d : Drawing} (hstandard : p.constants = [])
    (h : p.draw false = .ok d) :
    IsWellFormed d.text ↔ ∀ text ∈ p.relations.filter p.compiles,
      '\x0b' ∉ text.toList ∧ '\x0c' ∉ text.toList := by
  obtain ⟨picture, rfl, -, -, htitles⟩ := exists_picture h
  have hvocabulary : p.environment.2.1 = (Vocabulary.standard .empty).1 := by
    rw [environment, register, hstandard, registerAll]
  rw [picture.isWellFormed_iff, ← htitles, List.forall_mem_map]
  refine forall₂_congr fun g hg => ?_
  have htitle : g.title ∈ p.relations.filter p.compiles :=
    htitles ▸ List.mem_map_of_mem hg
  have hcompiles := (List.mem_filter.mp htitle).2
  rw [compiles, hvocabulary] at hcompiles
  cases hr : Relation.ofText? (Vocabulary.standard .empty).1 g.title with
  | ok r => exact Relation.isXmlText_iff hr
  | error e =>
    rw [hr] at hcompiles
    cases hcompiles

end PlotFile

end ImplicitPlot

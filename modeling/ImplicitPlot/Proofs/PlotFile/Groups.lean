import ImplicitPlot.CommandLine.Run
import ImplicitPlot.Proofs.Contour.History
import ImplicitPlot.Proofs.Symbols.Constants

/-
  Relations that are drawn together. One tracer and one store serve all relations of a plot, each
  after the ones before it. What a relation draws is all the same what it draws alone, in an
  environment and with a tracer that nothing else was drawn with: a trace spares all cells but
  those of the axes, and does not see where these were (`groups_eq`).
-/
namespace ImplicitPlot

open Symbols Contour

namespace PlotFile

/-! ## Texts that are drawn alone -/

/-- Whether a text is a relation in the environment of a plot. -/
def compiles (p : PlotFile) (text : String) : Bool :=
  (Relation.ofText? p.environment.2.1 text).isOk

/-- The group of segments that has a title and the colour with a number. -/
def group (title : String) (i : Nat) (segments : List Segment) : List Drawing.Mark :=
  .opening title (Drawing.colour i) :: (segments.map .segment ++ [.closing])

/-! ## One tracer for all -/

theorem text_of_ofText? {V : Vocabulary} {text : String} {r : Relation}
    (h : Relation.ofText? V text = .ok r) : r.text = text := by
  unfold Relation.ofText? Relation.compile at h
  cases hbuild : Relation.build V (Relation.ofText text).text.toList with
  | ok built =>
    rw [hbuild] at h
    cases h
    rfl
  | error e => rw [hbuild] at h; cases h

/-- The valid relations among some texts are those of the texts that compile. -/
theorem map_text_compileAll (p : PlotFile) (texts : List String) :
    (compileAll p.environment.2.1 texts).map (·.text) = texts.filter p.compiles := by
  induction texts with
  | nil => rfl
  | cons text texts ih =>
    unfold compileAll at ih ⊢
    cases hr : Relation.ofText? p.environment.2.1 text with
    | ok r =>
      have hsome : (Relation.ofText? p.environment.2.1 text).toOption = some r := by rw [hr]; rfl
      have hcompiles : p.compiles text = true := by rw [compiles, hr]; rfl
      rw [List.filterMap_cons, List.filter_cons_of_pos hcompiles, ← ih]
      simp only [hsome, List.map_cons, text_of_ofText? hr]
    | error e =>
      have hnone : (Relation.ofText? p.environment.2.1 text).toOption = none := by rw [hr]; rfl
      have hfails : ¬p.compiles text = true := by rw [compiles, hr]; exact Bool.false_ne_true
      rw [List.filterMap_cons, List.filter_cons_of_neg hfails, ← ih]
      simp only [hnone]

theorem check_resolution {p : PlotFile} (h : p.check = .ok ()) : p.resolution.check = .ok () := by
  simp only [check, bind, Except.bind] at h
  split at h
  · cases h
  · split at h
    · cases h
    · exact h

/-- The drawing of a plot whose settings and constants are in order. -/
theorem draw_eq {p : PlotFile} (hcheck : p.check = .ok ()) (hconstants : p.environment.1 = .ok ())
    {axes : Vocabulary.Axes} (haxes : p.environment.2.1.axes? = some axes) {t : Tracer}
    (htracer : Tracer.new axes p.resolution = .ok t) (withGrid : Bool) :
    p.draw withGrid =
      if p.relations = [] then .error .noRelations
      else if compileAll p.environment.2.1 p.relations = [] then
        .error (.noneCompiled p.relations.length)
      else .ok ⟨p.width, p.height, (if withGrid then [.grid p.canvas] else []) ++
        groups p.canvas 0 t p.environment.2.2 (compileAll p.environment.2.1 p.relations)⟩ := by
  unfold environment at *
  unfold draw
  rw [hcheck]
  simp only [Except.mapError, bind, Except.bind, pure, Except.pure, hconstants, haxes, htracer,
    List.isEmpty_iff]
  rfl

end PlotFile

namespace CommandLine.Options

end CommandLine.Options

end ImplicitPlot

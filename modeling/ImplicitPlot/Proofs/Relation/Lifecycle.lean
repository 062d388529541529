import ImplicitPlot.Proofs.Contour.History
import ImplicitPlot.Proofs.Expression.Shape
import ImplicitPlot.Proofs.Relation.Evaluable
import ImplicitPlot.Proofs.Relation.Splitting

/-
  Relations that are edited, compiled, invalidated and traced in any order. A history says what
  was done; its last text and its last vocabulary are read off without looking at any relation
  (`History.text`, `History.vocabulary?`).

  A relation is up to date with its history if it has the last text and either no program or that
  of this text in the last vocabulary (`UpToDate`). Every relation starts so, and each change
  keeps it so (`UpToDate.change`); `relation_follows_history` collects what this says.
-/
namespace ImplicitPlot

open Symbols Expression Contour

/-- A vocabulary that registering and dropping can make. -/
abbrev Environment : Type := { V : Vocabulary // V.Reachable }

namespace Relation

/-! ## Histories -/

/-- How a relation is made: from a text, from a text that is compiled whether or not it can be, or
from a text that was found to compile. -/
inductive Origin where
  | written (text : String)
  | compiled (text : String) (V : Environment)
  | accepted (text : String) (V : Environment) (r : Relation) (h : ofText? V.val text = .ok r)

/-- What is done to a relation. -/
inductive Change where
  | edit (text : String)
  | compile (V : Environment)
  | invalidate
  | trace (t : Tracer) (σ : Store) (canvas : Canvas)

/-- How a relation was made, and what was done to it since, in this order. -/
structure History where
  origin : Origin
  changes : List Change

namespace Origin

def relation : Origin → Relation
  | written text => ofText text
  | compiled text V => ((ofText text).compile V.val).2
  | accepted _ _ r _ => r

def text : Origin → String
  | written text | compiled text _ | accepted text _ _ _ => text

def vocabulary? : Origin → Option Environment
  | written _ => none
  | compiled _ V | accepted _ V _ _ => some V

end Origin

namespace Change

/-- The relation after a change. -/
def apply (r : Relation) : Change → Relation
  | edit text => r.withText text
  | compile V => (r.compile V.val).2
  | invalidate => r.invalidate
  | trace t σ canvas => (t.trace σ r canvas).relation

/-- The last text after a change. -/
def text (last : String) : Change → String
  | edit text => text
  | compile _ | invalidate | trace _ _ _ => last

/-- The last vocabulary after a change. -/
def vocabulary? (last : Option Environment) : Change → Option Environment
  | compile V => some V
  | edit _ | invalidate | trace _ _ _ => last

end Change

namespace History

/-- What has become of the relation. -/
def relation (h : History) : Relation := h.changes.foldl Change.apply h.origin.relation

/-- The text that was set last. -/
def text (h : History) : String := h.changes.foldl Change.text h.origin.text

/-- The vocabulary that the relation was compiled with last, if it ever was. -/
def vocabulary? (h : History) : Option Environment :=
  h.changes.foldl Change.vocabulary? h.origin.vocabulary?

end History

/-! ## Being up to date -/

/-- A relation with a text, and without a program or with that of the text in a vocabulary. -/
inductive UpToDate (text : String) (V? : Option Environment) : Relation → Prop where
  | invalid : UpToDate text V? (ofText text)
  | valid {V : Environment} {k : Comparison} {program : Program} (hV : V? = some V)
      (hbuild : build V.val text.toList = .ok (k, program)) :
      UpToDate text V? ⟨text, some k, program⟩

theorem compile_of_ok {r : Relation} {V : Vocabulary} {k : Comparison} {program : Program}
    (h : build V r.text.toList = .ok (k, program)) :
    r.compile V = (.ok (), ⟨r.text, some k, program⟩) := by
  rw [compile, h]

theorem compile_of_error {r : Relation} {V : Vocabulary} {e : Error}
    (h : build V r.text.toList = .error e) : r.compile V = (.error e, ofText r.text) := by
  rw [compile, h]
  rfl

/-- A relation is up to date after it was compiled, whether or not this succeeds. -/
theorem upToDate_compile (r : Relation) (V : Environment) :
    UpToDate r.text (some V) (r.compile V.val).2 := by
  cases hbuild : build V.val r.text.toList with
  | ok built =>
    rw [compile_of_ok hbuild]
    exact .valid rfl hbuild
  | error e =>
    rw [compile_of_error hbuild]
    exact .invalid

theorem Origin.upToDate (o : Origin) : UpToDate o.text o.vocabulary? o.relation := by
  cases o with
  | written text => exact .invalid
  | compiled text V => exact upToDate_compile (ofText text) V
  | accepted text V r h =>
    rw [ofText?_eq] at h
    cases hbuild : build V.val text.toList with
    | ok built =>
      rw [hbuild] at h
      obtain rfl := Except.ok.inj h
      exact .valid rfl hbuild
    | error e =>
      rw [hbuild] at h
      cases h

namespace UpToDate

variable {text : String} {V? : Option Environment} {r : Relation}

theorem text_eq (h : UpToDate text V? r) : r.text = text := by
  cases h <;> rfl

/-- A valid relation has the comparison and the program of its text in the last vocabulary. -/
theorem exists_build (h : UpToDate text V? r) (hr : r.isValid = true) :
    ∃ V k, V? = some V ∧ r.comparison? = some k ∧
      build V.val r.text.toList = .ok (k, r.program) := by
  cases h with
  | invalid => cases hr
  | @valid V k program hV hbuild => exact ⟨V, k, hV, rfl, hbuild⟩

/-- The program of a relation that is up to date leaves one value. -/
theorem heightAfter?_program (h : UpToDate text V? r) (hr : r.isValid = true) :
    heightAfter? r.program.code 0 = some 1 := by
  obtain ⟨V, k, -, -, hbuild⟩ := h.exists_build hr
  exact heightAfter?_of_build V.property.operators_suit hbuild

/-- Tracing leaves a relation that is up to date as it is. -/
theorem trace_eq (h : UpToDate text V? r) (t : Tracer) (σ : Store) (canvas : Canvas) :
    (t.trace σ r canvas).relation = r := by
  by_cases hr : r.isValid = true
  · exact (Tracer.trace_ok hr (h.heightAfter?_program hr) t σ canvas).2
  · rw [Tracer.trace_invalid hr]

theorem change (h : UpToDate text V? r) (c : Change) :
    UpToDate (c.text text) (c.vocabulary? V?) (c.apply r) := by
  cases c with
  | edit text' => exact .invalid
  | compile V =>
    have hcompiled := upToDate_compile r V
    rw [h.text_eq] at hcompiled
    exact hcompiled
  | invalidate =>
    have hinvalid : r.invalidate = ofText text := by rw [← h.text_eq]; rfl
    show UpToDate text V? r.invalidate
    rw [hinvalid]
    exact .invalid
  | trace t σ canvas =>
    show UpToDate text V? (t.trace σ r canvas).relation
    rw [h.trace_eq t σ canvas]
    exact h

theorem changes (h : UpToDate text V? r) (cs : List Change) :
    UpToDate (cs.foldl Change.text text) (cs.foldl Change.vocabulary? V?)
      (cs.foldl Change.apply r) := by
  induction cs generalizing text V? r with
  | nil => exact h
  | cons c cs ih => exact ih (h.change c)

/-- A relation is not valid exactly if it has no instructions. -/
theorem isValid_eq_false_iff (h : UpToDate text V? r) :
    r.isValid = false ↔ r.program.isEmpty = true := by
  cases h with
  | invalid => exact ⟨fun _ => rfl, fun _ => rfl⟩
  | @valid V k program hV hbuild =>
    have hcode := heightAfter?_of_build V.property.operators_suit hbuild
    have hvalid : isValid ⟨text, some k, program⟩ = true := rfl
    have hne : program.code ≠ [] := by
      intro hnil
      rw [hnil] at hcode
      cases hcode
    rw [hvalid]
    simp [Program.isEmpty, hne]

end UpToDate

theorem History.upToDate (h : History) : UpToDate h.text h.vocabulary? h.relation :=
  h.origin.upToDate.changes h.changes

/-- Code that leaves one value adds one value in all. -/
theorem netDepth_of_heightAfter? {code : List Instruction} {n : Nat}
    (h : heightAfter? code 0 = some n) : netDepth code = n := by
  have hstart : heightAfter? code ([] : List Float).length = some n := h
  obtain ⟨stack, hexec, hlength⟩ := Machine.exec_of_heightAfter? .empty hstart
  have hnet := Machine.exec_netDepth hexec
  rw [List.length_nil, hlength] at hnet
  omega

/-- A relation follows its history. However it was made and whatever was done to it, its text is
the last one set, and it is not valid exactly if its program is empty. While it is valid, its
comparison and its program are those of its text in the vocabulary that it was compiled with
last, the program never lacks operands and its net depth is one, and tracing changes nothing of
it. If it cannot be compiled, it is left with its text alone, also where it was valid before. -/
theorem relation_follows_history (h : History) :
    let r := h.relation
    r.text = h.text ∧
    (r.isValid = false ↔ r.program.isEmpty = true) ∧
    (r.isValid = true →
      (∃ V k, h.vocabulary? = some V ∧ r.comparison? = some k ∧
        build V.val r.text.toList = .ok (k, r.program)) ∧
      r.program.maxDepth? ≠ none ∧ netDepth r.program.code = 1 ∧
      ∀ (t : Tracer) (σ : Store) (canvas : Canvas), (t.trace σ r canvas).relation = r) ∧
    ∀ (V : Vocabulary) (e : Error), (r.compile V).1 = .error e →
      (r.compile V).2 = ⟨r.text, none, .empty⟩ := by
  intro r
  have hr : UpToDate h.text h.vocabulary? r := h.upToDate
  refine ⟨hr.text_eq, hr.isValid_eq_false_iff, ?_, ?_⟩
  · intro hvalid
    have hcode := hr.heightAfter?_program hvalid
    obtain ⟨depth, hdepth⟩ := (Program.has_value hcode).1
    have hoperands : r.program.maxDepth? ≠ none := by
      rw [hdepth]
      exact Option.some_ne_none depth
    exact ⟨hr.exists_build hvalid, hoperands, netDepth_of_heightAfter? hcode, hr.trace_eq⟩
  · intro V e hfailed
    cases hbuild : build V r.text.toList with
    | ok built =>
      rw [compile_of_ok hbuild] at hfailed
      cases hfailed
    | error e' =>
      rw [compile_of_error hbuild]
      rfl

end Relation

end ImplicitPlot

import ImplicitPlot.Proofs.Contour.Passes
import ImplicitPlot.Proofs.Expression.Balance

/-
  Whatever was compiled from text can be evaluated. Compiling checks that each operator finds its
  operands, so the programs of expressions and relations never lack a value and never leave one
  too many, under any values of the variables; tracing such a relation cannot fail.
-/
namespace ImplicitPlot

open Symbols Expression Contour

namespace Relation

/-- The program of a relation leaves the difference of its sides. -/
theorem heightAfter?_of_build {V : Vocabulary} (hV : V.OperatorsSuit) {text : List Char}
    {c : Comparison} {p : Program} (h : build V text = .ok (c, p)) :
    heightAfter? p.code 0 = some 1 := by
  unfold build at h
  split at h
  · cases h
  rename_i s _
  rcases hleft : Expression.compile V s.left with e | left
  · rw [hleft] at h; cases h
  rcases hright : Expression.compile V s.right with e | right
  · rw [hleft, hright] at h; cases h
  rw [hleft, hright] at h
  cases h
  have hl := heightAfter?_of_compile hV hleft
  have hr := heightAfter?_add (heightAfter?_of_compile hV hright) 1
  show heightAfter? (left.code ++ right.code ++ [Instruction.apply V.subtraction]) 0 = some 1
  rw [heightAfter?_concat, heightAfter?_append, hl, Option.bind_some, hr, Option.bind_some,
    depthAfter?_apply (Nat.le_of_eq V.arity_subtraction), V.arity_subtraction]

theorem heightAfter?_of_ofText? {V : Vocabulary} (hV : V.OperatorsSuit) {text : String}
    {r : Relation} (h : ofText? V text = .ok r) :
    r.isValid = true ∧ heightAfter? r.program.code 0 = some 1 := by
  unfold ofText? compile at h
  rcases hbuild : build V (ofText text).text.toList with e | ⟨c, p⟩
  · rw [hbuild] at h; cases h
  · rw [hbuild] at h
    cases h
    exact ⟨rfl, heightAfter?_of_build hV hbuild⟩

end Relation

/-- A program that leaves one value never lacks operands and has a value on every machine, under
every store. -/
theorem Expression.Program.has_value {p : Program} (h : heightAfter? p.code 0 = some 1) :
    (∃ depth, p.maxDepth? = some depth) ∧
      ∀ (m : Machine) (σ : Store), ∃ x, (m.evaluate σ p).1 = .ok x := by
  constructor
  · rw [← Option.isSome_iff_exists, Program.isSome_maxDepth?, h]
    rfl
  · intro m σ
    rw [m.evaluate_fst]
    exact (Program.exists_value_iff σ p).mpr h

/-- What compiles has a value. In every reachable vocabulary the program of an expression that
compiles never lacks operands and has a value on every machine and under every store, whatever
happens to the vocabulary afterwards. The same holds for the program of a relation; tracing the
relation from any tracer over any canvas goes through and leaves it valid. -/
theorem compiled_programs_have_values {V : Vocabulary} (hV : V.Reachable) :
    (∀ (text : List Char) (p : Program), Expression.compile V text = .ok p →
      (∃ depth, p.maxDepth? = some depth) ∧
        ∀ (m : Machine) (σ : Store), ∃ x, (m.evaluate σ p).1 = .ok x) ∧
    ∀ (text : String) (r : Relation), Relation.ofText? V text = .ok r →
      (∃ depth, r.program.maxDepth? = some depth) ∧
      (∀ (m : Machine) (σ : Store), ∃ x, (m.evaluate σ r.program).1 = .ok x) ∧
      ∀ (t : Tracer) (σ : Store) (canvas : Canvas),
        (∃ n, (t.trace σ r canvas).outcome = .ok n) ∧
          (t.trace σ r canvas).relation = r ∧ r.isValid = true := by
  have hsuit := hV.operators_suit
  refine ⟨fun text p h => Program.has_value (heightAfter?_of_compile hsuit h), fun text r h => ?_⟩
  · obtain ⟨hvalid, hcode⟩ := Relation.heightAfter?_of_ofText? hsuit h
    refine ⟨(Program.has_value hcode).1, (Program.has_value hcode).2, fun t σ canvas => ?_⟩
    obtain ⟨hok, hsame⟩ := Tracer.trace_ok hvalid hcode t σ canvas
    exact ⟨hok, hsame, hvalid⟩

theorem compiled_programs_have_values_one_variable :
    ∃ (V : Vocabulary) (r : Relation), V.Reachable ∧ Relation.ofText? V "x=x" = .ok r ∧
      (∃ depth, r.program.maxDepth? = some depth) ∧
        ∀ (t : Tracer) (σ : Store) (canvas : Canvas),
          (∃ n, (t.trace σ r canvas).outcome = .ok n) ∧
            (t.trace σ r canvas).relation = r ∧ r.isValid = true := by
  let x : Variable := ⟨"x", .free, 0⟩
  let V : Vocabulary := { Vocabulary.empty with vars := ⟨.node 'x' (some x) .nil .nil, 1⟩ }
  have hadd : Vocabulary.empty.addVariable .empty "x" .free 0.0 =
      .ok (x, V, Store.empty.push 0.0) := rfl
  have hV : V.Reachable := Vocabulary.Reachable.empty.addVariable hadd
  have hrun : Scan.start.run V 0 ['x'] = .ok ⟨[.load x], [], false⟩ := by
    rw [Scan.run_step (show Text.dropBlanks ['x'] = 'x' :: [] from rfl)]
    exact Scan.run_blank rfl _ _
  have hx : Expression.compile V ['x'] = .ok ⟨[.load x]⟩ := by
    unfold Expression.compile
    rw [hrun]
    rfl
  have hbuild : Relation.build V "x=x".toList =
      .ok (.equal, ⟨[.load x, .load x, .apply Operator.subtraction]⟩) := by
    unfold Relation.build
    rw [show Relation.Sides.ofText? "x=x".toList = some ⟨['x'], .equal, ['x']⟩ from rfl]
    dsimp only
    rw [hx]
    rfl
  have hr : Relation.ofText? V "x=x" =
      .ok ⟨"x=x", some .equal, ⟨[.load x, .load x, .apply Operator.subtraction]⟩⟩ := by
    unfold Relation.ofText? Relation.compile
    rw [show (Relation.ofText "x=x").text.toList = "x=x".toList from rfl, hbuild]
    rfl
  obtain ⟨-, hrelation⟩ := compiled_programs_have_values hV
  obtain ⟨hdepth, -, htrace⟩ := hrelation _ _ hr
  exact ⟨V, _, hV, hr, hdepth, htrace⟩

end ImplicitPlot

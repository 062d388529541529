import ImplicitPlot.Proofs.Expression.Alphabet
import ImplicitPlot.Proofs.Relation.Splitting

/-
  Chained comparisons. A comparison is written with `=`, `<` and `>`, and a `!` in front of a `=`.
  Where no name of a vocabulary holds one of the three characters, as in the standard one, no
  expression does (`Symbols.Vocabulary.Alphabet.not_relational`): the first comparison of a relation
  is its only one, and a text with two of them, one behind the other, is refused
  (`ofText?_compares_once`).
-/
namespace ImplicitPlot

open Symbols

/-- A character that a comparison ends with. -/
def isRelational (c : Char) : Bool := c == '=' || c == '<' || c == '>'

theorem isRelational_iff {c : Char} : isRelational c = true ↔ c = '=' ∨ c = '<' ∨ c = '>' := by
  simp only [isRelational, Bool.or_eq_true, beq_iff_eq, or_assoc]

/-- No name of a vocabulary holds a character that a comparison ends with. -/
def Symbols.Vocabulary.SparesComparisons (V : Vocabulary) : Prop :=
  ∀ table name entry, V.find? table name = some entry → ∀ c ∈ name, isRelational c = false

theorem Symbols.Vocabulary.sparesComparisons_standard (σ : Store) :
    (Vocabulary.standard σ).1.SparesComparisons := by
  intro table name entry hfind c hc
  have hplain : (!isRelational c) = true :=
    Preset.standard.forall_mem_name σ (fun c => !isRelational c) (by decide) hfind c hc
  rwa [Bool.not_eq_true'] at hplain

theorem Symbols.Vocabulary.Alphabet.not_relational {V : Vocabulary} (hV : V.SparesComparisons)
    {c : Char} (h : V.Alphabet c) : isRelational c = false := by
  cases h with
  | blank hblank =>
    refine Bool.eq_false_iff.mpr fun hc => ?_
    obtain rfl | rfl | rfl := isRelational_iff.mp hc <;> exact absurd hblank (by decide)
  | digit hdigit =>
    refine Bool.eq_false_iff.mpr fun hc => ?_
    obtain rfl | rfl | rfl := isRelational_iff.mp hc <;> exact absurd hdigit (by decide)
  | point => rfl
  | openGroup => rfl
  | closeGroup => rfl
  | comma => rfl
  | name hname hc => exact hV _ _ _ hname c hc

namespace Relation

/-! ## Comparisons inside a split -/

theorem Comparison.exists_symbol_concat (k : Comparison) :
    ∃ cs c, k.symbol.toList = cs ++ [c] ∧ isRelational c = true := by
  cases k
  · exact ⟨[], '=', rfl, rfl⟩
  · exact ⟨['!'], '=', rfl, rfl⟩
  · exact ⟨[], '<', rfl, rfl⟩
  · exact ⟨['<'], '=', rfl, rfl⟩
  · exact ⟨[], '>', rfl, rfl⟩
  · exact ⟨['>'], '=', rfl, rfl⟩

theorem Comparison.length_symbol_le (k : Comparison) : k.symbol.toList.length ≤ 2 := by
  cases k <;> decide

/-- Where the sides hold no relational character, all of these belong to the comparison. -/
theorem Sides.Splits.index_of_relational {s : Sides} {text : List Char} (h : s.Splits text)
    (hplain : ∀ c ∈ s.left ++ s.right, isRelational c = false) (front rest : List Char) {c : Char}
    (htext : text = front ++ c :: rest) (hc : isRelational c = true) :
    s.left.length ≤ front.length ∧
      front.length < s.left.length + s.comparison.symbol.toList.length := by
  have hget : (s.left ++ s.comparison.symbol.toList ++ s.right)[front.length]? = some c := by
    rw [← h.text_eq, htext, List.getElem?_append_right (Nat.le_refl _), Nat.sub_self,
      List.getElem?_cons_zero]
  have hside : c ∉ s.left ++ s.right := by
    intro hmem
    rw [hplain c hmem] at hc
    cases hc
  rw [List.mem_append, not_or] at hside
  refine ⟨Nat.le_of_not_lt fun hlt => ?_, Nat.lt_of_not_le fun hle => ?_⟩
  · rw [List.append_assoc, List.getElem?_append_left hlt] at hget
    exact hside.1 (List.mem_of_getElem? hget)
  · rw [List.getElem?_append_right (by rw [List.length_append]; exact hle)] at hget
    exact hside.2 (List.mem_of_getElem? hget)

/-- A comparison is too short to hold two of them with something between. -/
theorem Sides.Splits.not_chained {s : Sides} {text : List Char} (h : s.Splits text)
    (hplain : ∀ c ∈ s.left ++ s.right, isRelational c = false) {a b c : List Char}
    (k k' : Comparison) (hb : b ≠ []) :
    text ≠ a ++ k.symbol.toList ++ b ++ k'.symbol.toList ++ c := by
  intro htext
  obtain ⟨cs, d, hk, hd⟩ := k.exists_symbol_concat
  obtain ⟨cs', d', hk', hd'⟩ := k'.exists_symbol_concat
  rw [hk, hk'] at htext
  have hfirst := h.index_of_relational hplain (a ++ cs) (b ++ (cs' ++ [d']) ++ c)
    (by rw [htext]; simp only [List.append_assoc]; rfl) hd
  have hsecond := h.index_of_relational hplain (a ++ (cs ++ [d]) ++ b ++ cs') c
    (by rw [htext]; simp only [List.append_assoc]; rfl) hd'
  have hpos : 0 < b.length := List.length_pos_iff.mpr hb
  have hshort := s.comparison.length_symbol_le
  simp only [List.length_append, List.length_singleton] at hfirst hsecond
  omega

/-! ## Relations -/

/-- A relation compares once. Where no name holds a character that comparisons end with, as in the
standard vocabulary, neither side of a relation does, so its comparison is the only one of its text.
A text with two comparisons and something between them is therefore no relation. -/
theorem ofText?_compares_once :
    (∀ σ, (Vocabulary.standard σ).1.Reachable ∧ (Vocabulary.standard σ).1.SparesComparisons) ∧
    ∀ V : Vocabulary, V.SparesComparisons → ∀ text : String,
      (∀ r, ofText? V text = .ok r → ∃ s : Sides, s.Splits text.toList ∧
        r.comparison? = some s.comparison ∧
        (∀ c ∈ s.left, c ≠ '=' ∧ c ≠ '<' ∧ c ≠ '>') ∧ ∀ c ∈ s.right, c ≠ '=' ∧ c ≠ '<' ∧ c ≠ '>') ∧
      ∀ (a b c : List Char) (k k' : Comparison), b ≠ [] →
        text.toList = a ++ k.symbol.toList ++ b ++ k'.symbol.toList ++ c →
          ∃ e, ofText? V text = .error e := by
  refine ⟨fun σ => ⟨.standard σ, Vocabulary.sparesComparisons_standard σ⟩, fun V hV text => ?_⟩
  have hrelation : ∀ r, ofText? V text = .ok r → ∃ s : Sides, s.Splits text.toList ∧
      r.comparison? = some s.comparison ∧ ∀ c ∈ s.left ++ s.right, isRelational c = false := by
    intro r hr
    obtain ⟨s, p, q, hsplit, hleft, hright, rfl⟩ := ofText?_eq_ok_iff.mp hr
    refine ⟨s, hsplit, rfl, fun c hc => ?_⟩
    rcases List.mem_append.mp hc with hc | hc
    · exact (Expression.alphabet_of_compile hleft c hc).not_relational hV
    · exact (Expression.alphabet_of_compile hright c hc).not_relational hV
  constructor
  · intro r hr
    obtain ⟨s, hsplit, hcomparison, hplain⟩ := hrelation r hr
    have hspared : ∀ c ∈ s.left ++ s.right, c ≠ '=' ∧ c ≠ '<' ∧ c ≠ '>' := by
      intro c hc
      have hnot := hplain c hc
      rw [Bool.eq_false_iff, ne_eq, isRelational_iff] at hnot
      simpa only [not_or] using hnot
    rw [List.forall_mem_append] at hspared
    exact ⟨s, hsplit, hcomparison, hspared⟩
  · intro a b c k k' hb htext
    rcases hr : ofText? V text with e | r
    · exact ⟨e, rfl⟩
    · obtain ⟨s, hsplit, -, hplain⟩ := hrelation r hr
      exact absurd htext (hsplit.not_chained hplain k k' hb)

end Relation

end ImplicitPlot

import ImplicitPlot.Proofs.Expression.Context
import ImplicitPlot.Proofs.Symbols.Presets

/-
  The characters of expressions. A text that compiles holds nothing that its scan did not read, so
  each of its characters is white space or belongs to a token: to a numeral, a parenthesis, a comma
  or a name of the vocabulary (`alphabet_of_compile`). The names of a preset are known, so what its
  expressions can be written with is known as well (`Preset.forall_mem_name`).
-/
namespace ImplicitPlot

open Symbols Expression

namespace Symbols

/-- The characters that expressions are written with. -/
inductive Vocabulary.Alphabet (V : Vocabulary) : Char → Prop where
  | blank {c : Char} (h : Text.isBlank c = true) : Alphabet V c
  | digit {c : Char} (h : c.isDigit = true) : Alphabet V c
  | point : Alphabet V '.'
  | openGroup : Alphabet V '('
  | closeGroup : Alphabet V ')'
  | comma : Alphabet V ','
  | name {table : Table} {name : List Char} {entry : Entry} {c : Char}
      (h : V.find? table name = some entry) (hc : c ∈ name) : Alphabet V c

/-- What holds of the characters of all listed names holds of the names that are found. -/
theorem Preset.forall_mem_name (p : Preset) (σ : Store) (q : Char → Bool)
    (h : ((p.entries 0).map Entry.key).all (fun k => k.2.all q) = true) {table : Table}
    {name : List Char} {entry : Entry} (hfind : (p.make σ).1.find? table name = some entry) :
    ∀ c ∈ name, q c = true := by
  rw [(p.make_holds σ).1.entry_eq] at hfind
  refine List.all_eq_true.mp (List.all_eq_true.mp h (table, name) ?_)
  by_contra hne
  rw [← p.keys_eq σ.cells.size] at hne
  have hnone : ((p.tables σ.cells.size).1 table).lookup name = none :=
    Tables.lookup_putAll_of_ne hne
  rw [hnone] at hfind
  cases hfind

end Symbols

namespace Expression

variable {V : Vocabulary}

theorem IsNumeral.alphabet {text : List Char} (h : IsNumeral text) : ∀ c ∈ text, V.Alphabet c := by
  cases h with
  | whole _ hds => exact fun c hc => .digit (hds c hc)
  | pointed _ hds hes =>
    refine List.forall_mem_append.mpr ⟨fun c hc => .digit (hds c hc), ?_⟩
    exact List.forall_mem_cons.mpr ⟨.point, fun c hc => .digit (hes c hc)⟩

theorem alphabet_of_operator (fixity : Fixity) {name : List Char} {op : Operator}
    (h : (V.operators fixity).get? name = some op) : ∀ c ∈ name, V.Alphabet c := by
  have hfind : V.find? fixity.table name = some (.operator op) := by
    rw [Vocabulary.find?_operators, h]
    rfl
  exact fun c hc => .name hfind hc

theorem OperandToken.Writes.alphabet {token : OperandToken} {word : List Char}
    (h : token.Writes V word) : ∀ c ∈ word, V.Alphabet c := by
  cases h with
  | openGroup => exact List.forall_mem_singleton.mpr .openGroup
  | number h => exact h.alphabet
  | prefixed h => exact alphabet_of_operator .prefixed h
  | call h =>
    exact List.forall_mem_append.mpr
      ⟨alphabet_of_operator .called h, List.forall_mem_singleton.mpr .openGroup⟩
  | «variable» h =>
    have hfind : V.find? .vars _ = some (.var _) := congrArg (Option.map Entry.var) h
    exact fun c hc => .name hfind hc

theorem OperatorToken.Writes.alphabet {token : OperatorToken} {word : List Char}
    (h : token.Writes V word) : ∀ c ∈ word, V.Alphabet c := by
  cases h with
  | closeGroup => exact List.forall_mem_singleton.mpr .closeGroup
  | comma => exact List.forall_mem_singleton.mpr .comma
  | infixed h => exact alphabet_of_operator .infixed h
  | suffixed h => exact alphabet_of_operator .suffixed h

namespace Scan

/-- The characters that a step reads belong to a token. -/
theorem step_alphabet {offset n : Nat} {c : Char} {cs : List Char} {s s' : Scan}
    (h : s.step V offset c cs = .ok (n, s')) : ∀ d ∈ (c :: cs).take n, V.Alphabet d := by
  obtain ⟨-, token, htoken, -⟩ | ⟨-, token, htoken, -⟩ := step_cases h
  · exact (operandToken?_writes htoken).2.alphabet
  · exact (operatorToken?_writes htoken).2.alphabet

/-- A run that succeeds has passed over white space and read tokens, and nothing else. -/
theorem run_alphabet {offset : Nat} {cs : List Char} {s s' : Scan}
    (h : s.run V offset cs = .ok s') : ∀ d ∈ cs, V.Alphabet d := by
  refine run_induction (P := fun _ cs _ r => r = .ok s' → ∀ d ∈ cs, V.Alphabet d) ?_ ?_ ?_
    offset cs s h
  · intro offset bs s hbs _ d hd
    exact .blank (hbs d hd)
  · intro offset bs c cs s e _ _ _ h
    cases h
  · intro offset bs c cs s n t r hbs _ hstep ih h
    refine List.forall_mem_append.mpr ⟨fun d hd => .blank (hbs d hd), ?_⟩
    rw [← List.take_append_drop n (c :: cs)]
    exact List.forall_mem_append.mpr ⟨step_alphabet hstep, ih h⟩

end Scan

/-- Every character of an expression is white space or belongs to a token. -/
theorem alphabet_of_compile {text : List Char} {p : Program} (h : compile V text = .ok p) :
    ∀ c ∈ text, V.Alphabet c := by
  obtain ⟨ops, out, hrun, -⟩ := compile_eq_ok_iff.mp h
  exact Scan.run_alphabet hrun

end Expression

end ImplicitPlot

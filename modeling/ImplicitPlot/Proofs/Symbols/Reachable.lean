import ImplicitPlot.Symbols.Standard
import ImplicitPlot.Proofs.Symbols.Entries

/-
  The vocabularies that a program can come to hold. One starts empty and is changed by
  registrations and by dropping variables; the standard one and the one without axes are made
  in the same way (`Reachable.builtin`, `Reachable.standard`). A copy of a vocabulary is the
  vocabulary itself, so copying needs no rule. Priorities of operators are arbitrary.

  `Reachable.operators_suit`: each table of operators holds only operators that are written as
  the table says and that take as many operands as this way of writing gives them.
-/
namespace ImplicitPlot.Symbols

/-- An operator as the table of one way of writing may hold it. -/
def Operator.Suits (fixity : Fixity) (op : Operator) : Prop :=
  op.fixity = fixity ∧
    match fixity with
    | .prefixed | .suffixed => op.arity = 1
    | .infixed => op.arity = 2
    | .called => 0 < op.arity ∧ op.priority = Operator.tightest

theorem Operator.suits_prefixed (name : String) (priority : Nat) (apply : List Float → Float) :
    (Operator.prefixed name priority apply).Suits .prefixed := ⟨rfl, rfl⟩

theorem Operator.suits_infixed (name : String) (priority : Nat) (apply : List Float → Float) :
    (Operator.infixed name priority apply).Suits .infixed := ⟨rfl, rfl⟩

theorem Operator.suits_suffixed (name : String) (apply : List Float → Float) :
    (Operator.suffixed name apply).Suits .suffixed := ⟨rfl, rfl⟩

theorem Operator.suits_called (name : String) {arity : Nat} (h : 0 < arity)
    (apply : List Float → Float) : (Operator.called name arity apply).Suits .called := ⟨rfl, h, rfl⟩

namespace Vocabulary

/-- The vocabularies that registering and dropping make from the empty one. -/
inductive Reachable : Vocabulary → Prop where
  | empty : Reachable .empty
  | addVariable {V V' : Vocabulary} {σ σ' : Store} {name : String} {kind : VariableKind}
      {x : Float} {v : Variable} (hV : Reachable V)
      (h : V.addVariable σ name kind x = .ok (v, V', σ')) : Reachable V'
  | addFunction {V V' : Vocabulary} {name : String} {arity : Nat} {apply : List Float → Float}
      (hV : Reachable V) (h : V.addFunction name arity apply = .ok V') : Reachable V'
  | addPrefix {V V' : Vocabulary} {name : String} {priority : Nat} {apply : List Float → Float}
      (hV : Reachable V) (h : V.addOperator (.prefixed name priority apply) = .ok V') :
      Reachable V'
  | addInfix {V V' : Vocabulary} {name : String} {priority : Nat} {apply : List Float → Float}
      (hV : Reachable V) (h : V.addOperator (.infixed name priority apply) = .ok V') :
      Reachable V'
  | addSuffix {V V' : Vocabulary} {name : String} {apply : List Float → Float}
      (hV : Reachable V) (h : V.addOperator (.suffixed name apply) = .ok V') : Reachable V'
  | dropVariable {V V' : Vocabulary} {name : String} {v : Variable} (hV : Reachable V)
      (h : V.dropVariable? name = some (v, V')) : Reachable V'

/-! ## The standard vocabularies -/

/-- What holds of every registration of a list holds of all of them together. -/
theorem addOperators_induction {P : Vocabulary → Prop} {ops : List Operator} {V : Vocabulary}
    (hV : P V) (hstep : ∀ op ∈ ops, ∀ V V', P V → V.addOperator op = .ok V' → P V') :
    P (V.addOperators ops) := by
  unfold addOperators
  induction ops generalizing V with
  | nil => exact hV
  | cons op ops ih =>
    rw [List.foldl_cons]
    refine ih ?_ fun o ho => hstep o (List.mem_cons_of_mem op ho)
    cases h : V.addOperator op with
    | error e => exact hV
    | ok V' => exact hstep op List.mem_cons_self V V' hV h

theorem Reachable.addVariables {V : Vocabulary} (hV : V.Reachable) (σ : Store)
    (kind : VariableKind) (vs : List (String × Float)) :
    (V.addVariables σ kind vs).1.Reachable := by
  unfold Vocabulary.addVariables
  induction vs generalizing V σ with
  | nil => exact hV
  | cons p vs ih =>
    obtain ⟨name, x⟩ := p
    rw [List.foldl_cons]
    dsimp only
    split
    · rename_i h
      exact ih (hV.addVariable h) _
    · exact ih hV σ

theorem Reachable.addStandard {V V' : Vocabulary} (hV : V.Reachable) {op : Operator}
    (hop : op ∈ Operator.standardInfixes ++ Operator.standardPrefixes ++
      Operator.standardFunctions)
    (h : V.addOperator op = .ok V') : V'.Reachable := by
  simp only [List.mem_append] at hop
  obtain (hop | hop) | hop := hop
  · simp only [Operator.standardInfixes, Operator.subtraction, List.mem_cons, List.not_mem_nil,
      or_false] at hop
    obtain rfl | rfl | rfl | rfl | rfl | rfl := hop <;> exact hV.addInfix h
  · simp only [Operator.standardPrefixes, List.mem_cons, List.not_mem_nil, or_false] at hop
    obtain rfl | rfl := hop <;> exact hV.addPrefix h
  · have hcalled : ∃ name n apply, op = Operator.called name (n + 1) apply := by
      simp only [Operator.standardFunctions, List.mem_cons, List.not_mem_nil, or_false] at hop
      obtain rfl | rfl | rfl | rfl | rfl | rfl | rfl | rfl | rfl | rfl | rfl | rfl | rfl | rfl |
        rfl := hop <;> exact ⟨_, _, _, rfl⟩
    obtain ⟨name, n, apply, rfl⟩ := hcalled
    have hadd : V.addFunction name (n + 1) apply = .ok V' := by
      rw [Vocabulary.addFunction, if_neg n.succ_ne_zero]
      exact h
    exact hV.addFunction hadd

theorem Reachable.builtin (σ : Store) : (Vocabulary.builtin σ).1.Reachable := by
  unfold Vocabulary.builtin
  exact Reachable.addVariables
    (addOperators_induction .empty fun _ hop _ _ hV h => hV.addStandard hop h) σ _ _

theorem Reachable.standard (σ : Store) : (Vocabulary.standard σ).1.Reachable := by
  have h := Reachable.builtin σ
  unfold Vocabulary.standard
  -- opaque here, or the unifier would run the registrations
  generalize Vocabulary.builtin σ = p at h ⊢
  exact h.addVariables p.2 _ _

/-! ## Operators of a reachable vocabulary -/

theorem operators_withOperators (V : Vocabulary) (fixity fixity' : Fixity) (ops : Trie Operator) :
    (V.withOperators fixity ops).operators fixity' =
      if fixity' = fixity then ops else V.operators fixity' := by
  cases fixity <;> cases fixity' <;> rfl

/-- Each table of operators holds operators that suit it. -/
def OperatorsSuit (V : Vocabulary) : Prop :=
  ∀ fixity, ∀ e ∈ (V.operators fixity).entries, e.2.Suits fixity

theorem OperatorsSuit.addOperator {V V' : Vocabulary} (hV : V.OperatorsSuit) {op : Operator}
    (hop : op.Suits op.fixity) (h : V.addOperator op = .ok V') : V'.OperatorsSuit := by
  unfold Vocabulary.addOperator at h
  cases hops : enter op.fixity.table (V.operators op.fixity) op.name op with
  | error e => rw [hops] at h; cases h
  | ok ops =>
    rw [hops] at h
    cases h
    intro fixity e he
    rw [operators_withOperators] at he
    by_cases hf : fixity = op.fixity
    · subst hf
      rw [if_pos rfl] at he
      obtain rfl | he := mem_entries_enter hops he
      · exact hop
      · exact hV _ e he
    · rw [if_neg hf] at he
      exact hV fixity e he

theorem operators_addVariable {V V' : Vocabulary} {σ σ' : Store} {name : String}
    {kind : VariableKind} {x : Float} {v : Variable}
    (h : V.addVariable σ name kind x = .ok (v, V', σ')) (fixity : Fixity) :
    V'.operators fixity = V.operators fixity := by
  unfold Vocabulary.addVariable at h
  cases hvars : enter .vars V.vars name (σ.alloc name kind x).1 with
  | error e => simp only [hvars] at h; cases h
  | ok vars =>
    simp only [hvars] at h
    cases h
    cases fixity <;> rfl

theorem operators_dropVariable? {V V' : Vocabulary} {name : String} {v : Variable}
    (h : V.dropVariable? name = some (v, V')) (fixity : Fixity) :
    V'.operators fixity = V.operators fixity := by
  unfold Vocabulary.dropVariable? at h
  simp only [Option.bind_eq_bind, Option.bind_eq_some_iff] at h
  obtain ⟨w, -, vars, -, h⟩ := h
  cases h
  cases fixity <;> rfl

theorem operatorsSuit_empty : empty.OperatorsSuit := by
  intro fixity e he
  cases fixity <;> cases he

theorem Reachable.operators_suit {V : Vocabulary} (hV : V.Reachable) : V.OperatorsSuit := by
  induction hV with
  | empty => exact operatorsSuit_empty
  | addVariable _ h ih => exact fun fixity e he => ih fixity e (operators_addVariable h fixity ▸ he)
  | @addFunction _ _ name arity apply _ h ih =>
    unfold Vocabulary.addFunction at h
    split at h
    · cases h
    · rename_i harity
      exact ih.addOperator (Operator.suits_called name (Nat.pos_of_ne_zero harity) apply) h
  | addPrefix _ h ih => exact ih.addOperator (Operator.suits_prefixed _ _ _) h
  | addInfix _ h ih => exact ih.addOperator (Operator.suits_infixed _ _ _) h
  | addSuffix _ h ih => exact ih.addOperator (Operator.suits_suffixed _ _) h
  | dropVariable _ h ih =>
    exact fun fixity e he => ih fixity e (operators_dropVariable? h fixity ▸ he)

/-- The operator that joins the sides of a relation takes two operands, whatever the vocabulary. -/
theorem arity_subtraction (V : Vocabulary) : V.subtraction.arity = 2 := by
  unfold subtraction
  cases h : (V.infixes.get? ['-']).filter fun op => op.arity == 2 with
  | none => rfl
  | some op =>
    rw [Option.filter_eq_some_iff] at h
    exact eq_of_beq h.2

end Vocabulary

end ImplicitPlot.Symbols

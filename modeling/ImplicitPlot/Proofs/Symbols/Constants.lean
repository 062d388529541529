import ImplicitPlot.PlotFile.Basic
import ImplicitPlot.Proofs.Symbols.Axes
import ImplicitPlot.Proofs.Symbols.Canonical
import ImplicitPlot.Proofs.Symbols.Reachable

/-
  Constants beside the axes. A variable that is registered gets a new cell and a name that was
  free, so the variables before it keep their names and their cells. The axes of the standard
  vocabulary therefore stay what they are whatever constants come after them
  (`PlotFile.environment_hasAxes`), also when one of those is refused.
-/
namespace ImplicitPlot

namespace Symbols

/-- A name that has a value keeps it when another name is inserted. -/
theorem Trie.get?_insert? {α : Type} {t t' : Trie α} (ht : t.forest.Canonical)
    {name : List Char} {v : α} (h : t.insert? name v = some t') {other : List Char} {w : α}
    (hother : t.get? other = some w) : t'.get? other = some w := by
  rw [insert?] at h
  split at h
  · cases h
  · rename_i hfree
    obtain rfl := Option.some.inj h
    simp only [Bool.or_eq_true, List.isEmpty_iff, not_or, contains] at hfree
    have hne : other ≠ name := by
      rintro rfl
      simp [hother] at hfree
    have hvalue : t.forest.value? other = some w := hother
    show (t.forest.insert v name).value? other = some w
    rw [ht.value?_insert v hfree.1, if_neg hne, hvalue]

namespace Vocabulary

theorem insert?_of_enter {α : Type} {table : Table} {t t' : Trie α} {name : String} {v : α}
    (h : enter table t name v = .ok t') : t.insert? name.toList v = some t' := by
  rw [enter] at h
  split at h
  · split at h
    · rename_i hinsert
      cases h
      exact hinsert
    · cases h
  · cases h

/-- A registered variable has a new cell, and its name the place in the vocabulary. -/
theorem addVariable_ok {V V' : Vocabulary} {σ σ' : Store} {name : String} {kind : VariableKind}
    {x : Float} {v : Variable} (h : V.addVariable σ name kind x = .ok (v, V', σ')) :
    ∃ vars, V.vars.insert? name.toList ⟨name, kind, σ.cells.size⟩ = some vars ∧
      V' = { V with vars } ∧ σ' = σ.push x := by
  rw [addVariable] at h
  cases henter : enter .vars V.vars name (σ.alloc name kind x).1 with
  | error e => simp only [henter] at h; cases h
  | ok vars =>
    simp only [henter] at h
    cases h
    exact ⟨vars, insert?_of_enter henter, rfl, rfl⟩

theorem vars_addOperator {V V' : Vocabulary} {op : Operator} (h : V.addOperator op = .ok V') :
    V'.vars = V.vars := by
  rw [addOperator] at h
  cases hops : enter op.fixity.table (V.operators op.fixity) op.name op with
  | error e => rw [hops] at h; cases h
  | ok ops =>
    rw [hops] at h
    cases h
    rcases op with ⟨name, fixity, arity, priority, apply⟩
    cases fixity <;> rfl

/-- The names of the variables of a reachable vocabulary stand in order. -/
theorem Reachable.canonical_vars {V : Vocabulary} (hV : V.Reachable) :
    V.vars.forest.Canonical := by
  induction hV with
  | empty => exact .nil
  | addVariable _ h ih =>
    obtain ⟨vars, hinsert, rfl, -⟩ := addVariable_ok h
    rw [Trie.insert?] at hinsert
    split at hinsert
    · cases hinsert
    · obtain rfl := Option.some.inj hinsert
      exact ih.insert _ _
  | addFunction _ h ih =>
    rw [Vocabulary.addFunction] at h
    split at h
    · cases h
    · exact vars_addOperator h ▸ ih
  | addPrefix _ h ih | addInfix _ h ih | addSuffix _ h ih => exact vars_addOperator h ▸ ih
  | dropVariable _ h ih =>
    simp only [Vocabulary.dropVariable?, Option.bind_eq_bind, Option.bind_eq_some_iff] at h
    obtain ⟨w, -, vars, herase, h⟩ := h
    cases h
    rw [Trie.erase?] at herase
    split at herase
    · obtain rfl := Option.some.inj herase
      exact ih.erase _
    · cases herase

/-- A reachable vocabulary with axes, and a store that holds them. -/
structure HasAxes (V : Vocabulary) (σ : Store) (axes : Axes) : Prop where
  reachable : V.Reachable
  axes_eq : V.axes? = some axes
  settable : axes.Settable σ

theorem free?_eq_some_iff {V : Vocabulary} {name : String} {v : Variable} :
    V.free? name = some v ↔ V.variableNamed? name = some v ∧ v.kind = .free := by
  rw [free?, Option.filter_eq_some_iff, beq_iff_eq]

/-- A variable that is registered later leaves the axes alone. -/
theorem HasAxes.addVariable {V V' : Vocabulary} {σ σ' : Store} {axes : Axes}
    (h : V.HasAxes σ axes) {name : String} {kind : VariableKind} {x : Float} {v : Variable}
    (hadd : V.addVariable σ name kind x = .ok (v, V', σ')) : V'.HasAxes σ' axes := by
  obtain ⟨vars, hinsert, rfl, rfl⟩ := addVariable_ok hadd
  have hfree : ∀ {name : String} {w : Variable}, V.free? name = some w →
      ({ V with vars } : Vocabulary).free? name = some w := by
    intro name w hw
    obtain ⟨hnamed, hkind⟩ := free?_eq_some_iff.mp hw
    have hkept : vars.get? name.toList = some w :=
      Trie.get?_insert? h.reachable.canonical_vars hinsert hnamed
    exact free?_eq_some_iff.mpr ⟨hkept, hkind⟩
  have haxes := h.axes_eq
  simp only [axes?, Option.bind_eq_bind, Option.bind_eq_some_iff, Option.pure_def,
    Option.some.injEq] at haxes
  obtain ⟨ax, hx, ay, hy, rfl⟩ := haxes
  have hset := h.settable
  refine ⟨h.reachable.addVariable hadd, ?_, hset.x_free, hset.y_free, ?_, ?_⟩
  · rw [axes?, hfree hx, hfree hy]
    rfl
  · simpa [Store.push] using Nat.lt_succ_of_lt hset.x_lt
  · simpa [Store.push] using Nat.lt_succ_of_lt hset.y_lt

set_option maxRecDepth 4000 in
/-- The standard vocabulary has the axes behind its two constants. -/
theorem hasAxes_standard : (standard .empty).1.HasAxes (standard .empty).2
    ⟨⟨"x", .free, 2⟩, ⟨"y", .free, 3⟩⟩ where
  reachable := Reachable.standard .empty
  axes_eq := rfl
  settable := by
    have hsize : (standard .empty).2.cells.size = 4 := rfl
    exact ⟨rfl, rfl, by rw [hsize]; decide, by rw [hsize]; decide⟩

end Vocabulary

end Symbols

namespace PlotFile

open Symbols

/-- What a plot is compiled and drawn in: the standard vocabulary with the constants of the
plot. -/
def environment (p : PlotFile) : Except RegistrationError Unit × Vocabulary × Store :=
  p.register (Vocabulary.standard .empty).1 (Vocabulary.standard .empty).2

theorem registerAll_hasAxes {V : Vocabulary} {σ : Store} {axes : Vocabulary.Axes}
    (h : V.HasAxes σ axes) (constants : List (String × Float)) :
    (registerAll V σ constants).2.1.HasAxes (registerAll V σ constants).2.2 axes := by
  induction constants generalizing V σ with
  | nil => exact h
  | cons c constants ih =>
    obtain ⟨name, x⟩ := c
    rw [registerAll]
    cases hadd : V.addVariable σ name .constant x with
    | error e => exact h
    | ok added =>
      obtain ⟨v, V', σ'⟩ := added
      exact ih (h.addVariable hadd)

/-- The constants of a plot leave the axes where the standard vocabulary has them. -/
theorem environment_hasAxes (p : PlotFile) :
    p.environment.2.1.HasAxes p.environment.2.2 ⟨⟨"x", .free, 2⟩, ⟨"y", .free, 3⟩⟩ :=
  registerAll_hasAxes Vocabulary.hasAxes_standard p.constants

end PlotFile

end ImplicitPlot

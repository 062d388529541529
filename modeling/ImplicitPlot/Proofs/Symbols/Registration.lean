import ImplicitPlot.Proofs.Symbols.Bindings
import ImplicitPlot.Proofs.Symbols.Reachable

/-
  What a registration does to a vocabulary as a whole. All six kinds of registration come down to
  one: an entry is admitted to the table it belongs in, or refused and nothing changes
  (`Vocabulary.register_eq`). An entry is refused if it is an operator without operands, if its
  name cannot be spelled in its table (`Table.Spells`), or if its name is taken there
  (`Entry.refusal?`).

  `Tables` are five finite maps that admit and drop entries by the same rule and know nothing of
  tries. A vocabulary that holds the same entries makes the same choices and holds the same
  entries afterwards (`Vocabulary.Holds.register`, `Vocabulary.Holds.edit`).
-/
namespace ImplicitPlot.Symbols

/-! ## Names -/

/-- A name that can be spelled in an expression as an entry of a table: it is not empty, holds no
white space, parenthesis or comma, and does not start a variable or function as a number starts. -/
structure Table.Spells (table : Table) (name : List Char) : Prop where
  ne_nil : name ≠ []
  no_separator : ∀ c ∈ name, Text.isBlank c = false ∧ c ≠ '(' ∧ c ≠ ')' ∧ c ≠ ','
  no_number : table = .vars ∨ table = .functions →
    ∀ c rest, name = c :: rest → c.isDigit = false ∧ c ≠ '.'

theorem isSeparator_eq_false_iff {c : Char} :
    isSeparator c = false ↔ Text.isBlank c = false ∧ c ≠ '(' ∧ c ≠ ')' ∧ c ≠ ',' := by
  simp only [isSeparator, Bool.or_eq_false_iff, beq_eq_false_iff_ne, and_assoc]

theorem startsNumber_eq_false_iff {c : Char} :
    startsNumber c = false ↔ c.isDigit = false ∧ c ≠ '.' := by
  simp only [startsNumber, Bool.or_eq_false_iff, beq_eq_false_iff_ne]

theorem Table.admits_iff (table : Table) (name : List Char) :
    table.admits name = true ↔ table.Spells name := by
  rcases name with _ | ⟨c, rest⟩
  · simp only [admits, Bool.false_eq_true, false_iff]
    intro h
    exact h.ne_nil rfl
  · simp only [admits, Bool.and_eq_true, Bool.not_eq_true', List.any_eq_false,
      Bool.and_eq_false_imp, Bool.or_eq_true, beq_iff_eq, Bool.not_eq_true,
      isSeparator_eq_false_iff, startsNumber_eq_false_iff]
    constructor
    · rintro ⟨hseparator, hnumber⟩
      refine ⟨List.cons_ne_nil c rest, hseparator, ?_⟩
      intro htable d ds heq
      obtain ⟨rfl, rfl⟩ := List.cons.inj heq
      exact hnumber htable
    · intro h
      exact ⟨h.no_separator, fun htable => h.no_number htable c rest rfl⟩

instance (table : Table) (name : List Char) : Decidable (table.Spells name) :=
  decidable_of_iff _ (table.admits_iff name)

theorem Fixity.table_inj {fixity fixity' : Fixity} :
    fixity.table = fixity'.table ↔ fixity = fixity' := by
  cases fixity <;> cases fixity' <;> decide

/-! ## Entries -/

/-- What a name can stand for. -/
inductive Entry where
  | var (v : Variable)
  | operator (op : Operator)

namespace Entry

def name : Entry → String
  | var v => v.name
  | operator op => op.name

/-- The table that an entry belongs in. -/
def table : Entry → Table
  | var _ => .vars
  | operator op => op.fixity.table

/-- An operator that takes no operand, as none may. -/
def isNullary : Entry → Bool
  | var _ => false
  | operator op => op.arity == 0

/-- An operator has the arity and priority that go with how it is written. -/
def Suits : Entry → Prop
  | var _ => True
  | operator op => op.Suits op.fixity

/-- Why an entry is refused, given whether its name is taken; none if it is admitted. -/
def refusal? (entry : Entry) (taken : Prop) [Decidable taken] : Option RegistrationError :=
  if entry.isNullary then some (.zeroArity entry.name)
  else if entry.table.Spells entry.name.toList then
    if taken then some (.duplicate entry.table entry.name) else none
  else some (.invalidName entry.table entry.name)

theorem refusal?_eq_none_iff {entry : Entry} {taken : Prop} [Decidable taken] :
    entry.refusal? taken = none ↔
      entry.table.Spells entry.name.toList ∧ ¬taken ∧ entry.isNullary = false := by
  unfold refusal?
  split
  · rename_i hnullary
    simp [hnullary]
  · rename_i hnullary
    split
    · rename_i hspells
      by_cases htaken : taken <;> simp [htaken, hspells, hnullary]
    · rename_i hspells
      simp [hspells]

theorem refusal?_congr (entry : Entry) {taken taken' : Prop} [Decidable taken]
    [Decidable taken'] (h : taken ↔ taken') : entry.refusal? taken = entry.refusal? taken' := by
  unfold refusal?
  simp only [h]

end Entry

/-! ## Edits -/

/-- A call that registers something. -/
inductive Registration where
  | free (name : String)
  | constant (name : String) (x : Float)
  | called (name : String) (arity : Nat) (apply : List Float → Float)
  | prefixed (name : String) (priority : Nat) (apply : List Float → Float)
  | infixed (name : String) (priority : Nat) (apply : List Float → Float)
  | suffixed (name : String) (apply : List Float → Float)

namespace Registration

/-- What is to be entered; a variable gets the cell with a number. -/
def entry (cell : Nat) : Registration → Entry
  | free name => .var ⟨name, .free, cell⟩
  | constant name _ => .var ⟨name, .constant, cell⟩
  | called name arity apply => .operator (.called name arity apply)
  | prefixed name priority apply => .operator (.prefixed name priority apply)
  | infixed name priority apply => .operator (.infixed name priority apply)
  | suffixed name apply => .operator (.suffixed name apply)

/-- The value of the new cell, if a variable is registered. -/
def cellValue? : Registration → Option Float
  | free _ => some 0.0
  | constant _ x => some x
  | called _ _ _ | prefixed _ _ _ | infixed _ _ _ | suffixed _ _ => none

/-- The store after a registration that was not refused. -/
def storeAfter (r : Registration) (σ : Store) : Store :=
  match r.cellValue? with
  | some x => σ.push x
  | none => σ

theorem suits_entry (cell : Nat) (r : Registration) (h : (r.entry cell).isNullary = false) :
    (r.entry cell).Suits := by
  cases r with
  | free name => trivial
  | constant name x => trivial
  | called name arity apply =>
    have harity : arity ≠ 0 := by
      simpa only [entry, Entry.isNullary, Operator.called, beq_eq_false_iff_ne] using h
    exact Operator.suits_called name (Nat.pos_of_ne_zero harity) apply
  | prefixed name priority apply => exact Operator.suits_prefixed name priority apply
  | infixed name priority apply => exact Operator.suits_infixed name priority apply
  | suffixed name apply => exact Operator.suits_suffixed name apply

end Registration

/-- A call that changes a vocabulary. -/
inductive Edit where
  | register (r : Registration)
  | drop (name : String)

/-- What a call says. -/
inductive Answer where
  | entered (entry : Entry)
  | refused (e : RegistrationError)
  | dropped (v : Variable)
  | absent

/-! ## Vocabularies -/

/-- The trie with a value for a name that had none. -/
def Trie.put {α : Type} (t : Trie α) (name : List Char) (v : α) : Trie α :=
  ⟨t.forest.insert v name, t.size + 1⟩

theorem Trie.get?_put {α : Type} {t : Trie α} (ht : t.forest.Canonical) {name : List Char}
    (hname : name ≠ []) (v : α) (other : List Char) :
    (t.put name v).get? other = if other = name then some v else t.get? other :=
  ht.value?_insert v hname other

namespace Vocabulary

/-- Register something, or say why not. -/
def register (V : Vocabulary) (σ : Store) :
    Registration → Except RegistrationError (Entry × Vocabulary × Store)
  | .free name => (V.addVariable σ name .free 0.0).map fun (v, V, σ) => (.var v, V, σ)
  | .constant name x => (V.addVariable σ name .constant x).map fun (v, V, σ) => (.var v, V, σ)
  | .called name arity apply =>
    (V.addFunction name arity apply).map fun V => (.operator (.called name arity apply), V, σ)
  | .prefixed name priority apply =>
    (V.addOperator (.prefixed name priority apply)).map fun V =>
      (.operator (.prefixed name priority apply), V, σ)
  | .infixed name priority apply =>
    (V.addOperator (.infixed name priority apply)).map fun V =>
      (.operator (.infixed name priority apply), V, σ)
  | .suffixed name apply =>
    (V.addOperator (.suffixed name apply)).map fun V => (.operator (.suffixed name apply), V, σ)

/-- The answer to an edit, and the vocabulary and the store after it. -/
def edit (V : Vocabulary) (σ : Store) : Edit → Answer × Vocabulary × Store
  | .register r =>
    match V.register σ r with
    | .ok (entry, V, σ) => (.entered entry, V, σ)
    | .error e => (.refused e, V, σ)
  | .drop name =>
    match V.dropVariable? name with
    | some (v, V) => (.dropped v, V, σ)
    | none => (.absent, V, σ)

/-- What a name stands for in a table. -/
def find? (V : Vocabulary) (table : Table) (name : List Char) : Option Entry :=
  match table with
  | .vars => (V.vars.get? name).map .var
  | .functions => (V.functions.get? name).map .operator
  | .prefixes => (V.prefixes.get? name).map .operator
  | .infixes => (V.infixes.get? name).map .operator
  | .suffixes => (V.suffixes.get? name).map .operator

theorem find?_operators (V : Vocabulary) (fixity : Fixity) (name : List Char) :
    V.find? fixity.table name = ((V.operators fixity).get? name).map .operator := by
  cases fixity <;> rfl

/-- The vocabulary with one more entry. -/
def put (V : Vocabulary) : Entry → Vocabulary
  | .var v => { V with vars := V.vars.put v.name.toList v }
  | .operator op => V.withOperators op.fixity ((V.operators op.fixity).put op.name.toList op)

/-- The vocabulary without a variable. -/
def remove (V : Vocabulary) (name : List Char) : Vocabulary :=
  { V with vars := ⟨V.vars.forest.erase name, V.vars.size - 1⟩ }

/-- The vocabulary with one more entry, or why that is refused. -/
def accept (V : Vocabulary) (entry : Entry) : Except RegistrationError Vocabulary :=
  match entry.refusal? ((V.find? entry.table entry.name.toList).isSome = true) with
  | some e => .error e
  | none => .ok (V.put entry)

/-- A table takes an entry or says why it is refused. -/
theorem enter_eq {α : Type} {entry : Entry} (hentry : entry.isNullary = false) {t : Trie α}
    {taken : Prop} [Decidable taken] (htaken : (t.get? entry.name.toList).isSome = true ↔ taken)
    (v : α) :
    enter entry.table t entry.name v =
      match entry.refusal? taken with
      | some e => .error e
      | none => .ok (t.put entry.name.toList v) := by
  unfold enter Entry.refusal? Trie.insert? Trie.contains
  simp only [Table.admits_iff, hentry, Bool.false_eq_true, if_false]
  by_cases hspells : entry.table.Spells entry.name.toList
  · have hname : entry.name.toList.isEmpty = false := by simpa using hspells.ne_nil
    rw [if_pos hspells, if_pos hspells, hname, Bool.false_or]
    by_cases h : taken
    · rw [if_pos h, if_pos (htaken.mpr h)]
    · rw [if_neg h, if_neg (htaken.not.mpr h)]
      rfl
  · rw [if_neg hspells, if_neg hspells]

theorem addVariable_eq (V : Vocabulary) (σ : Store) (name : String) (kind : VariableKind)
    (x : Float) :
    V.addVariable σ name kind x = (V.accept (.var ⟨name, kind, σ.cells.size⟩)).map fun V' =>
      (⟨name, kind, σ.cells.size⟩, V', σ.push x) := by
  let entry : Entry := .var ⟨name, kind, σ.cells.size⟩
  have htaken : (V.vars.get? entry.name.toList).isSome = true ↔
      (V.find? entry.table entry.name.toList).isSome = true := by
    show _ ↔ ((V.vars.get? name.toList).map Entry.var).isSome = true
    rw [Option.isSome_map]
    exact Iff.rfl
  have henter : enter .vars V.vars name ⟨name, kind, σ.cells.size⟩ = _ :=
    enter_eq rfl htaken ⟨name, kind, σ.cells.size⟩
  unfold addVariable accept
  simp only [Store.alloc]
  rw [henter]
  cases entry.refusal? ((V.find? entry.table entry.name.toList).isSome = true) <;> rfl

theorem addOperator_eq (V : Vocabulary) {op : Operator} (h : op.arity ≠ 0) :
    V.addOperator op = V.accept (.operator op) := by
  let entry : Entry := .operator op
  have htaken : ((V.operators op.fixity).get? entry.name.toList).isSome = true ↔
      (V.find? entry.table entry.name.toList).isSome = true := by
    show _ ↔ (V.find? op.fixity.table op.name.toList).isSome = true
    rw [find?_operators, Option.isSome_map]
    exact Iff.rfl
  have hnullary : entry.isNullary = false := beq_eq_false_iff_ne.mpr h
  have henter : enter op.fixity.table (V.operators op.fixity) op.name op = _ :=
    enter_eq hnullary htaken op
  unfold addOperator accept
  rw [henter]
  cases entry.refusal? ((V.find? entry.table entry.name.toList).isSome = true) <;> rfl

theorem addOperator_of_enter {V : Vocabulary} {op : Operator} {ops : Trie Operator}
    (h : enter op.fixity.table (V.operators op.fixity) op.name op = .ok ops) :
    V.addOperator op = .ok (V.withOperators op.fixity ops) := by
  unfold addOperator
  rw [h]
  rfl

theorem addFunction_eq (V : Vocabulary) (name : String) (arity : Nat)
    (apply : List Float → Float) :
    V.addFunction name arity apply = V.accept (.operator (.called name arity apply)) := by
  unfold addFunction
  by_cases h : arity = 0
  · subst h
    rfl
  · rw [if_neg h]
    exact V.addOperator_eq h

/-- Every registration admits its entry or is refused. -/
theorem register_eq (V : Vocabulary) (σ : Store) (r : Registration) :
    V.register σ r = (V.accept (r.entry σ.cells.size)).map fun V' =>
      (r.entry σ.cells.size, V', r.storeAfter σ) := by
  cases r with
  | free name =>
    rw [register, addVariable_eq, Registration.entry]
    cases V.accept (.var ⟨name, .free, σ.cells.size⟩) <;> rfl
  | constant name x =>
    rw [register, addVariable_eq, Registration.entry]
    cases V.accept (.var ⟨name, .constant, σ.cells.size⟩) <;> rfl
  | called name arity apply => rw [register, addFunction_eq]; rfl
  | prefixed name priority apply => rw [register, addOperator_eq V Nat.one_ne_zero]; rfl
  | infixed name priority apply => rw [register, addOperator_eq V (by decide : 2 ≠ 0)]; rfl
  | suffixed name apply => rw [register, addOperator_eq V Nat.one_ne_zero]; rfl

theorem dropVariable?_eq (V : Vocabulary) (name : String) :
    V.dropVariable? name =
      (V.vars.get? name.toList).map fun v => (v, V.remove name.toList) := by
  unfold dropVariable? variableNamed? Trie.erase? Trie.contains
  cases V.vars.get? name.toList with
  | none => rfl
  | some v => rfl

/-! ## Lookups -/

/-- The names of every table stand in order. -/
structure InOrder (V : Vocabulary) : Prop where
  vars : V.vars.forest.Canonical
  operators : ∀ fixity, (V.operators fixity).forest.Canonical

theorem inOrder_empty : empty.InOrder := by
  refine ⟨.nil, ?_⟩
  intro fixity
  cases fixity <;> exact .nil

theorem InOrder.put {V : Vocabulary} (hV : V.InOrder) (entry : Entry) : (V.put entry).InOrder := by
  cases entry with
  | var v =>
    refine ⟨hV.vars.insert v v.name.toList, ?_⟩
    intro fixity
    have h := hV.operators fixity
    cases fixity <;> exact h
  | operator op =>
    refine ⟨?_, ?_⟩
    · rcases op with ⟨name, fixity, arity, priority, apply⟩
      cases fixity <;> exact hV.vars
    · intro fixity
      rw [Vocabulary.put, operators_withOperators]
      split
      · exact (hV.operators op.fixity).insert op op.name.toList
      · exact hV.operators fixity

theorem InOrder.remove {V : Vocabulary} (hV : V.InOrder) (name : List Char) :
    (V.remove name).InOrder := by
  refine ⟨hV.vars.erase name, ?_⟩
  intro fixity
  have h := hV.operators fixity
  cases fixity <;> exact h

/-- One more entry is found in its table under its name, and nothing else changes. -/
theorem InOrder.find?_put {V : Vocabulary} (hV : V.InOrder) {entry : Entry}
    (hname : entry.name.toList ≠ []) (table : Table) (name : List Char) :
    (V.put entry).find? table name =
      if table = entry.table ∧ name = entry.name.toList then some entry
      else V.find? table name := by
  cases entry with
  | var v =>
    have hname' : v.name.toList ≠ [] := hname
    cases table with
    | vars =>
      simp only [Vocabulary.put, find?, Trie.get?_put hV.vars hname', Entry.table, Entry.name,
        true_and]
      split <;> rfl
    | functions | prefixes | infixes | suffixes =>
      simp only [Entry.table, reduceCtorEq, false_and, if_false]
      rfl
  | operator op =>
    have hoperators : ∀ fixity, (V.put (.operator op)).find? fixity.table name =
        if fixity = op.fixity ∧ name = op.name.toList then some (.operator op)
        else V.find? fixity.table name := by
      intro fixity
      rw [find?_operators, find?_operators, Vocabulary.put, operators_withOperators]
      by_cases hfixity : fixity = op.fixity
      · subst hfixity
        rw [if_pos rfl, Trie.get?_put (hV.operators _) (show op.name.toList ≠ [] from hname)]
        simp only [true_and]
        split <;> rfl
      · rw [if_neg hfixity, if_neg (fun h => hfixity h.1)]
    simp only [← Fixity.table_inj] at hoperators
    cases table with
    | vars =>
      rcases op with ⟨opName, fixity, arity, priority, apply⟩
      cases fixity <;> simp only [Entry.table, Fixity.table, reduceCtorEq, false_and, if_false] <;>
        rfl
    | functions => exact hoperators .called
    | prefixes => exact hoperators .prefixed
    | infixes => exact hoperators .infixed
    | suffixes => exact hoperators .suffixed

/-- Removing a variable changes what its name stands for among the variables, and nothing else. -/
theorem InOrder.find?_remove {V : Vocabulary} (hV : V.InOrder) (removed : List Char)
    (table : Table) (name : List Char) :
    (V.remove removed).find? table name =
      if table = .vars ∧ name = removed then none else V.find? table name := by
  cases table with
  | vars =>
    have hget : (V.remove removed).vars.get? name =
        if name = removed then none else V.vars.get? name :=
      hV.vars.value?_erase removed name
    simp only [find?, hget, true_and]
    split <;> rfl
  | functions | prefixes | infixes | suffixes =>
    simp only [reduceCtorEq, false_and, if_false]
    rfl

end Vocabulary

/-! ## Five finite maps -/

/-- A finite map from names to entries for each table. -/
abbrev Tables : Type := Table → Bindings Entry

namespace Tables

/-- The maps with one more entry, in the map that it belongs in. -/
def put (T : Tables) (entry : Entry) : Tables :=
  Function.update T entry.table ((T entry.table).insert entry.name.toList entry)

/-- The maps with one more entry, or why that is refused. -/
def accept (T : Tables) (entry : Entry) : Except RegistrationError Tables :=
  match entry.refusal? (entry.name.toList ∈ T entry.table) with
  | some e => .error e
  | none => .ok (T.put entry)

/-- The maps without a variable. -/
def remove (T : Tables) (name : List Char) : Tables :=
  Function.update T .vars ((T .vars).erase name)

/-- The answer to an edit when `cells` cells have been made, and the maps and the number of cells
after it. -/
def edit (T : Tables) (cells : Nat) : Edit → Answer × Tables × Nat
  | .register r =>
    match T.accept (r.entry cells) with
    | .ok T' => (.entered (r.entry cells), T', cells + r.cellValue?.toList.length)
    | .error e => (.refused e, T, cells)
  | .drop name =>
    match (T .vars).lookup name.toList with
    | some (.var v) => (.dropped v, T.remove name.toList, cells)
    | _ => (.absent, T, cells)

theorem lookup_put (T : Tables) (entry : Entry) (table : Table) (name : List Char) :
    (T.put entry table).lookup name =
      if table = entry.table ∧ name = entry.name.toList then some entry
      else (T table).lookup name := by
  unfold put
  by_cases htable : table = entry.table
  · subst htable
    simp only [Function.update_self, Bindings.lookup_insert, true_and]
  · rw [Function.update_of_ne htable, if_neg (fun h => htable h.1)]

theorem lookup_remove (T : Tables) (removed : List Char) (table : Table) (name : List Char) :
    (T.remove removed table).lookup name =
      if table = .vars ∧ name = removed then none else (T table).lookup name := by
  unfold remove
  by_cases htable : table = .vars
  · subst htable
    simp only [Function.update_self, Bindings.lookup_erase, true_and]
  · rw [Function.update_of_ne htable, if_neg (fun h => htable h.1)]

end Tables

namespace Vocabulary

/-- A vocabulary in good order with the entries of five finite maps. -/
structure Holds (V : Vocabulary) (T : Tables) : Prop where
  inOrder : V.InOrder
  entry_eq : ∀ table name, V.find? table name = (T table).lookup name

namespace Holds

variable {V : Vocabulary} {T : Tables}

theorem put (h : V.Holds T) {entry : Entry} (hname : entry.name.toList ≠ []) :
    (V.put entry).Holds (T.put entry) := by
  refine ⟨h.inOrder.put entry, ?_⟩
  intro table name
  rw [h.inOrder.find?_put hname, Tables.lookup_put, h.entry_eq]

theorem remove (h : V.Holds T) (name : List Char) : (V.remove name).Holds (T.remove name) := by
  refine ⟨h.inOrder.remove name, ?_⟩
  intro table other
  rw [h.inOrder.find?_remove, Tables.lookup_remove, h.entry_eq]

theorem refusal?_eq (h : V.Holds T) (entry : Entry) :
    entry.refusal? ((V.find? entry.table entry.name.toList).isSome = true) =
      entry.refusal? (entry.name.toList ∈ T entry.table) := by
  refine entry.refusal?_congr ?_
  rw [h.entry_eq]
  exact Finmap.lookup_isSome

/-- The same entries are admitted, and refused for the same reasons. -/
theorem accept (h : V.Holds T) (entry : Entry) :
    (∃ e, V.accept entry = .error e ∧ T.accept entry = .error e) ∨
      (V.accept entry = .ok (V.put entry) ∧ T.accept entry = .ok (T.put entry) ∧
        (V.put entry).Holds (T.put entry)) := by
  unfold Vocabulary.accept Tables.accept
  rw [h.refusal?_eq]
  cases hrefusal : entry.refusal? (entry.name.toList ∈ T entry.table) with
  | some e => exact Or.inl ⟨e, rfl, rfl⟩
  | none =>
    obtain ⟨hspells, -, -⟩ := Entry.refusal?_eq_none_iff.mp hrefusal
    exact Or.inr ⟨rfl, rfl, h.put hspells.ne_nil⟩

/-- A vocabulary and the maps that it holds give the same answer to an edit, make the same cells
and hold the same entries after it. -/
theorem edit (h : V.Holds T) (σ : Store) (e : Edit) :
    (V.edit σ e).1 = (T.edit σ.cells.size e).1 ∧
      (V.edit σ e).2.1.Holds (T.edit σ.cells.size e).2.1 ∧
      (V.edit σ e).2.2.cells.size = (T.edit σ.cells.size e).2.2 := by
  cases e with
  | register r =>
    have hsize : (r.storeAfter σ).cells.size = σ.cells.size + r.cellValue?.toList.length := by
      unfold Registration.storeAfter
      cases r.cellValue? with
      | none => rfl
      | some x => simp [Store.push]
    rw [Vocabulary.edit, Tables.edit, register_eq]
    obtain ⟨e, hV, hT⟩ | ⟨hV, hT, hput⟩ := h.accept (r.entry σ.cells.size)
    · rw [hV, hT]
      exact ⟨rfl, h, rfl⟩
    · rw [hV, hT]
      exact ⟨rfl, hput, hsize⟩
  | drop name =>
    have hlookup : (V.vars.get? name.toList).map .var = (T .vars).lookup name.toList :=
      h.entry_eq .vars name.toList
    rw [Vocabulary.edit, Tables.edit, dropVariable?_eq, ← hlookup]
    cases V.vars.get? name.toList with
    | none => exact ⟨rfl, h, rfl⟩
    | some v => exact ⟨rfl, h.remove name.toList, rfl⟩

end Holds

end Vocabulary

end ImplicitPlot.Symbols

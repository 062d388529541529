import ImplicitPlot.Proofs.Symbols.Registration
import ImplicitPlot.Symbols.Standard

/-
  The vocabularies that are ready made, as finite maps. Their entries are put in one after the
  other, and none is refused (`Preset.make_holds`): every name can be spelled in its table, and
  no two stand in the same one (`Preset.fits`). So it makes no difference whether a preset checks
  its own names.
-/
namespace ImplicitPlot.Symbols

/-- The ways to make a vocabulary from nothing. -/
inductive Preset where
  | empty
  | builtin
  | standard
  deriving DecidableEq, Repr

namespace Entry

/-- The place that an entry takes. -/
def key (entry : Entry) : Table × List Char := (entry.table, entry.name.toList)

/-- Variables in one cell after the other. -/
def inCells (kind : VariableKind) : Nat → List String → List Entry
  | _, [] => []
  | cell, name :: names => .var ⟨name, kind, cell⟩ :: inCells kind (cell + 1) names

end Entry

/-! ## Many entries -/

namespace Tables

def empty : Tables := fun _ => ∅

/-- The maps with more entries, each where it belongs. -/
def putAll (T : Tables) (entries : List Entry) : Tables := entries.foldl put T

theorem lookup_putAll_of_ne {T : Tables} {entries : List Entry} {table : Table} {name : List Char}
    (h : (table, name) ∉ entries.map Entry.key) :
    (T.putAll entries table).lookup name = (T table).lookup name := by
  induction entries generalizing T with
  | nil => rfl
  | cons e entries ih =>
    rw [List.map_cons, List.mem_cons, not_or] at h
    have hplace : ¬(table = e.table ∧ name = e.name.toList) := fun heq => h.1 (Prod.ext heq.1 heq.2)
    exact (ih h.2).trans (by rw [lookup_put, if_neg hplace])

/-- Of entries in different places each is found in its own. -/
theorem lookup_putAll_of_mem {T : Tables} {entries : List Entry} {entry : Entry}
    (hmem : entry ∈ entries) (hdistinct : (entries.map Entry.key).Nodup) :
    (T.putAll entries entry.table).lookup entry.name.toList = some entry := by
  induction entries generalizing T with
  | nil => cases hmem
  | cons e entries ih =>
    rw [List.map_cons, List.nodup_cons] at hdistinct
    rcases List.mem_cons.mp hmem with rfl | hmem
    · exact (lookup_putAll_of_ne hdistinct.1).trans (by rw [lookup_put, if_pos ⟨rfl, rfl⟩])
    · exact ih hmem hdistinct.2

/-- Entries that are admitted one after the other, because none takes the place of another. -/
structure Fits (T : Tables) (entries : List Entry) : Prop where
  spells : ∀ k ∈ entries.map Entry.key, k.1.Spells k.2
  not_nullary : ∀ entry ∈ entries, entry.isNullary = false
  free : ∀ entry ∈ entries, entry.name.toList ∉ T entry.table
  distinct : (entries.map Entry.key).Nodup

namespace Fits

variable {T : Tables} {entry : Entry} {entries : List Entry}

theorem head (h : T.Fits (entry :: entries)) :
    entry.refusal? (entry.name.toList ∈ T entry.table) = none :=
  Entry.refusal?_eq_none_iff.mpr ⟨h.spells entry.key List.mem_cons_self,
    h.free entry List.mem_cons_self, h.not_nullary entry List.mem_cons_self⟩

theorem tail (h : T.Fits (entry :: entries)) : (T.put entry).Fits entries where
  spells k hk := h.spells k (List.mem_cons_of_mem entry.key hk)
  not_nullary e he := h.not_nullary e (List.mem_cons_of_mem entry he)
  free e he := by
    have hkey : e.key ≠ entry.key := by
      intro heq
      exact (List.nodup_cons.mp h.distinct).1 (heq ▸ List.mem_map_of_mem he)
    have hplace : ¬(e.table = entry.table ∧ e.name.toList = entry.name.toList) := by
      intro heq
      exact hkey (Prod.ext heq.1 heq.2)
    have hfree := h.free e (List.mem_cons_of_mem entry he)
    rw [← Finmap.lookup_eq_none] at hfree ⊢
    rw [lookup_put, if_neg hplace, hfree]
  distinct := (List.nodup_cons.mp h.distinct).2

theorem left {entries' : List Entry} (h : T.Fits (entries ++ entries')) : T.Fits entries where
  spells k hk := h.spells k (by rw [List.map_append]; exact List.mem_append_left _ hk)
  not_nullary e he := h.not_nullary e (List.mem_append_left entries' he)
  free e he := h.free e (List.mem_append_left entries' he)
  distinct := (List.nodup_append.mp (List.map_append ▸ h.distinct)).1

theorem right {entries' : List Entry} (h : T.Fits (entries ++ entries')) :
    (T.putAll entries).Fits entries' := by
  induction entries generalizing T with
  | nil => exact h
  | cons entry entries ih => exact ih h.tail

end Fits

end Tables

namespace Vocabulary

namespace Holds

variable {V : Vocabulary} {T : Tables}

theorem accept_of_fits (h : V.Holds T) {entry : Entry} {entries : List Entry}
    (hfits : T.Fits (entry :: entries)) :
    V.accept entry = .ok (V.put entry) ∧ (V.put entry).Holds (T.put entry) := by
  have hok : T.accept entry = .ok (T.put entry) := by
    rw [Tables.accept, hfits.head]
  obtain ⟨e, -, hT⟩ | ⟨hV, -, hput⟩ := h.accept entry
  · rw [hok] at hT
    cases hT
  · exact ⟨hV, hput⟩

theorem addOperators (h : V.Holds T) {ops : List Operator}
    (hfits : T.Fits (ops.map .operator)) :
    (V.addOperators ops).Holds (T.putAll (ops.map .operator)) := by
  unfold Vocabulary.addOperators
  induction ops generalizing V T with
  | nil => exact h
  | cons op ops ih =>
    have harity : op.arity ≠ 0 :=
      beq_eq_false_iff_ne.mp (hfits.not_nullary (.operator op) List.mem_cons_self)
    obtain ⟨haccept, hput⟩ := h.accept_of_fits hfits
    rw [List.foldl_cons, addOperator_eq V harity, haccept]
    exact ih hput hfits.tail

theorem addVariables_cons (h : V.Holds T) (σ : Store) {name : String} {kind : VariableKind}
    {entries : List Entry} (hfits : T.Fits (.var ⟨name, kind, σ.cells.size⟩ :: entries)) (x : Float)
    (vs : List (String × Float)) :
    V.addVariables σ kind ((name, x) :: vs) =
      (V.put (.var ⟨name, kind, σ.cells.size⟩)).addVariables (σ.push x) kind vs := by
  unfold Vocabulary.addVariables
  rw [List.foldl_cons]
  dsimp only
  rw [addVariable_eq, (h.accept_of_fits hfits).1]
  rfl

theorem addVariables (h : V.Holds T) (σ : Store) (kind : VariableKind)
    (vs : List (String × Float))
    (hfits : T.Fits (Entry.inCells kind σ.cells.size (vs.map Prod.fst))) :
    (V.addVariables σ kind vs).1.Holds
        (T.putAll (Entry.inCells kind σ.cells.size (vs.map Prod.fst))) ∧
      (V.addVariables σ kind vs).2.cells.size = σ.cells.size + vs.length := by
  induction vs generalizing V T σ with
  | nil => exact ⟨h, rfl⟩
  | cons p vs ih =>
    obtain ⟨name, x⟩ := p
    have hsize : (σ.push x).cells.size = σ.cells.size + 1 := by simp [Store.push]
    have hrest := ih (h.accept_of_fits hfits).2 (σ.push x) (by rw [hsize]; exact hfits.tail)
    rw [hsize] at hrest
    rw [h.addVariables_cons σ hfits x vs]
    refine ⟨hrest.1, hrest.2.trans ?_⟩
    rw [List.length_cons]
    omega

end Holds

theorem holds_empty : empty.Holds .empty where
  inOrder := inOrder_empty
  entry_eq table name := by cases table <;> rfl

end Vocabulary

/-! ## The presets -/

namespace Preset

def make (σ : Store) : Preset → Vocabulary × Store
  | empty => (.empty, σ)
  | builtin => Vocabulary.builtin σ
  | standard => Vocabulary.standard σ

/-- The operators and functions of the presets that have any. -/
def operators : List Operator :=
  Operator.standardInfixes ++ Operator.standardPrefixes ++ Operator.standardFunctions

/-- The constants of those presets, in cells from a number on. -/
def constants (cell : Nat) : List Entry := Entry.inCells .constant cell ["pi", "e"]

/-- The axes of the standard preset. -/
def axes (cell : Nat) : List Entry := Entry.inCells .free cell ["x", "y"]

/-- The entries of a preset whose variables are in cells from a number on. -/
def entries (cell : Nat) : Preset → List Entry
  | empty => []
  | builtin => operators.map .operator ++ constants cell
  | standard => operators.map .operator ++ constants cell ++ axes (cell + 2)

/-- How many variables a preset has. -/
def size : Preset → Nat
  | empty => 0
  | builtin => 2
  | standard => 4

/-- A preset as finite maps, and the number of cells after it is made. -/
def tables (cells : Nat) (p : Preset) : Tables × Nat :=
  (Tables.empty.putAll (p.entries cells), cells + p.size)

/-- Wherever the cells of a preset are, its entries take the same places. -/
theorem keys_eq (p : Preset) (cell : Nat) :
    (p.entries cell).map Entry.key = (p.entries 0).map Entry.key := by
  cases p <;> rfl

/-- The entries of a preset differ in their places, wherever its cells are. -/
theorem fits (p : Preset) (cell : Nat) : Tables.empty.Fits (p.entries cell) := by
  have hkeys := p.keys_eq cell
  refine ⟨?_, ?_, ?_, ?_⟩
  · rw [hkeys]
    cases p <;> decide +kernel
  · have h : (p.entries cell).all (fun entry => !entry.isNullary) = true := by
      cases p <;> rfl
    intro entry hentry
    simpa using List.all_eq_true.mp h entry hentry
  · intro entry _
    exact Finmap.notMem_empty
  · rw [hkeys]
    cases p <;> decide +kernel

theorem builtin_holds (σ : Store) :
    (Vocabulary.builtin σ).1.Holds
        (Tables.empty.putAll (operators.map .operator ++ constants σ.cells.size)) ∧
      (Vocabulary.builtin σ).2.cells.size = σ.cells.size + 2 := by
  have hfits : Tables.empty.Fits (operators.map .operator ++ constants σ.cells.size) :=
    builtin.fits σ.cells.size
  have hoperators := Vocabulary.holds_empty.addOperators hfits.left
  have hconstants := hfits.right
  unfold Vocabulary.builtin
  rw [Tables.putAll, List.foldl_append, ← Tables.putAll, ← Tables.putAll, ← operators]
  -- opaque from here on, or the unifier would run the registrations
  generalize Vocabulary.empty.addOperators operators = V at hoperators ⊢
  generalize Tables.empty.putAll (operators.map .operator) = T at hoperators hconstants ⊢
  exact hoperators.addVariables σ .constant
    [("pi", 3.141592653589793), ("e", 2.718281828459045)] hconstants

theorem standard_holds (σ : Store) :
    (Vocabulary.standard σ).1.Holds (Tables.empty.putAll
        (operators.map .operator ++ constants σ.cells.size ++ axes (σ.cells.size + 2))) ∧
      (Vocabulary.standard σ).2.cells.size = σ.cells.size + 4 := by
  have hfits : Tables.empty.Fits
      (operators.map .operator ++ constants σ.cells.size ++ axes (σ.cells.size + 2)) :=
    standard.fits σ.cells.size
  have haxes := hfits.right
  obtain ⟨hholds, hsize⟩ := builtin_holds σ
  unfold Vocabulary.standard
  rw [Tables.putAll, List.foldl_append, ← Tables.putAll, ← Tables.putAll]
  generalize Vocabulary.builtin σ = p at hholds hsize ⊢
  generalize Tables.empty.putAll (operators.map .operator ++ constants σ.cells.size) = T
    at hholds haxes ⊢
  obtain ⟨V, τ⟩ := p
  have hτ : τ.cells.size = σ.cells.size + 2 := hsize
  rw [← hτ] at haxes ⊢
  have h := hholds.addVariables τ .free [("x", 0.0), ("y", 0.0)] haxes
  rw [hτ] at h
  rw [hτ]
  exact h

/-- A preset holds the entries that it lists. -/
theorem make_holds (σ : Store) (p : Preset) :
    (p.make σ).1.Holds (p.tables σ.cells.size).1 ∧
      (p.make σ).2.cells.size = (p.tables σ.cells.size).2 := by
  cases p with
  | empty => exact ⟨Vocabulary.holds_empty, rfl⟩
  | builtin =>
    simp only [make, tables, entries, size]
    exact builtin_holds σ
  | standard =>
    simp only [make, tables, entries, size]
    exact standard_holds σ

/-- Each entry of a preset is found in its place. -/
theorem find?_of_mem {p : Preset} {σ : Store} {entry : Entry}
    (h : entry ∈ p.entries σ.cells.size) :
    (p.make σ).1.find? entry.table entry.name.toList = some entry := by
  rw [(p.make_holds σ).1.entry_eq]
  exact Tables.lookup_putAll_of_mem h (p.fits σ.cells.size).distinct

/-- In the standard vocabulary the sides of a relation are joined by subtraction. -/
theorem subtraction_standard (σ : Store) :
    (Vocabulary.standard σ).1.subtraction = Operator.subtraction := by
  have hmem : Entry.operator Operator.subtraction ∈ standard.entries σ.cells.size :=
    List.mem_append_left _ (List.mem_append_left _ (List.mem_map_of_mem (List.mem_append_left _
      (List.mem_append_left _ (List.mem_cons_of_mem _ List.mem_cons_self)))))
  have hfind := find?_of_mem hmem
  rw [make] at hfind
  -- opaque from here on, or the unifier would run the registrations
  generalize Vocabulary.standard σ = P at hfind ⊢
  have hname : P.1.infixes.get? ['-'] = some Operator.subtraction := by
    obtain ⟨op, hop, heq⟩ := Option.map_eq_some_iff.mp hfind
    cases heq
    exact hop
  rw [Vocabulary.subtraction, hname]
  rfl

end Preset

end ImplicitPlot.Symbols

/-
  Variables and the cells that hold their values.

  A variable is a handle: a name, a kind and the number of a cell. The values are in a store that
  is passed along, so programs, vocabularies and their copies that hold the same handle see the
  same value. A constant keeps the value its cell was made with: `set` leaves it alone
  (`set_constant`). `read_set_self` and `read_set_of_ne` say what a write changes.
-/
namespace ImplicitPlot.Symbols

/-- Whether a variable is set from outside or keeps its first value. -/
inductive VariableKind where
  | free
  | constant
  deriving DecidableEq, Repr

/-- A handle to a cell. -/
structure Variable where
  name : String
  kind : VariableKind
  cell : Nat
  deriving DecidableEq, Repr

/-- The values of all cells, by number. -/
structure Store where
  cells : Array Float

namespace Store

def empty : Store := ⟨#[]⟩

/-- The value of a variable. A cell that was never made holds zero. -/
def read (σ : Store) (v : Variable) : Float := σ.cells[v.cell]?.getD 0.0

/-- The store after a write to a variable; a constant is not written. -/
def set (σ : Store) (v : Variable) (x : Float) : Store :=
  match v.kind with
  | .free => ⟨σ.cells.setIfInBounds v.cell x⟩
  | .constant => σ

/-- Set a variable, and say whether it can be set. -/
def write (σ : Store) (v : Variable) (x : Float) : Bool × Store := (v.kind == .free, σ.set v x)

/-- The store with one more cell. -/
def push (σ : Store) (x : Float) : Store := ⟨σ.cells.push x⟩

/-- A new variable, in a cell of its own. -/
def alloc (σ : Store) (name : String) (kind : VariableKind) (x : Float) : Variable × Store :=
  (⟨name, kind, σ.cells.size⟩, σ.push x)

theorem set_constant (σ : Store) {v : Variable} (h : v.kind = .constant) (x : Float) :
    σ.set v x = σ := by
  simp [set, h]

theorem read_set_self (σ : Store) {v : Variable} (h : v.kind = .free)
    (hcell : v.cell < σ.cells.size) (x : Float) : (σ.set v x).read v = x := by
  simp [set, h, read, hcell]

theorem read_set_of_ne (σ : Store) {v w : Variable} (h : v.cell ≠ w.cell) (x : Float) :
    (σ.set v x).read w = σ.read w := by
  unfold set
  split
  · simp [read, Array.getElem?_setIfInBounds_ne h]
  · rfl

theorem size_set (σ : Store) (v : Variable) (x : Float) :
    (σ.set v x).cells.size = σ.cells.size := by
  unfold set
  split <;> simp

end Store

end ImplicitPlot.Symbols

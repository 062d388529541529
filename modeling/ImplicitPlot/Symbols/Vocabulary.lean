import ImplicitPlot.Symbols.Store
import ImplicitPlot.Symbols.Operator
import ImplicitPlot.Symbols.Trie
import ImplicitPlot.Text.Blank

/-
  Vocabularies: the five tables of names that an expression may use. The tables are independent,
  so one spelling can mean different things in different places.

  A name must be spellable: it is not empty and holds no white space, parenthesis or comma, and
  a variable or function does not start as a number does. Registering refuses a name that cannot
  be spelled and one that is taken, and then changes nothing.
-/
namespace ImplicitPlot.Symbols

/-- One of the five tables of names. -/
inductive Table where
  | vars
  | functions
  | prefixes
  | infixes
  | suffixes
  deriving DecidableEq, Repr

/-- What a table holds, in the singular. -/
def Table.describe : Table → String
  | .vars => "variable"
  | .functions => "function"
  | .prefixes => "prefix operator"
  | .infixes => "infix operator"
  | .suffixes => "suffix operator"

/-- The table of the operators that are written in one way. -/
def Fixity.table : Fixity → Table
  | .prefixed => .prefixes
  | .infixed => .infixes
  | .suffixed => .suffixes
  | .called => .functions

/-- Why a symbol was not registered. -/
inductive RegistrationError where
  | duplicate (table : Table) (name : String)
  | invalidName (table : Table) (name : String)
  | zeroArity (name : String)
  deriving DecidableEq, Repr

def RegistrationError.message : RegistrationError → String
  | .duplicate table name => table.describe ++ " '" ++ name ++ "' is already defined"
  | .invalidName table name => "'" ++ name ++ "' is not a valid " ++ table.describe ++ " name"
  | .zeroArity name => "function '" ++ name ++ "' must take at least one argument"

/-- A character that can stand in no name, because it separates tokens. -/
def isSeparator (c : Char) : Bool := Text.isBlank c || c == '(' || c == ')' || c == ','

/-- A character that a number starts with. -/
def startsNumber (c : Char) : Bool := c.isDigit || c == '.'

/-- A name that can be spelled in an expression as an entry of a table. -/
def Table.admits (table : Table) (name : List Char) : Bool :=
  match name with
  | [] => false
  | c :: _ =>
    !name.any isSeparator && !((table == .vars || table == .functions) && startsNumber c)

/-- The symbols that expressions are read with. -/
structure Vocabulary where
  vars : Trie Variable
  functions : Trie Operator
  prefixes : Trie Operator
  infixes : Trie Operator
  suffixes : Trie Operator

namespace Vocabulary

def empty : Vocabulary := ⟨.empty, .empty, .empty, .empty, .empty⟩

/-- The operators that are written in one way. -/
def operators (V : Vocabulary) : Fixity → Trie Operator
  | .prefixed => V.prefixes
  | .infixed => V.infixes
  | .suffixed => V.suffixes
  | .called => V.functions

/-- The vocabulary with other operators for one way of writing. -/
def withOperators (V : Vocabulary) (fixity : Fixity) (ops : Trie Operator) : Vocabulary :=
  match fixity with
  | .prefixed => { V with prefixes := ops }
  | .infixed => { V with infixes := ops }
  | .suffixed => { V with suffixes := ops }
  | .called => { V with functions := ops }

/-- The names of a table in the order of their characters. -/
def names (V : Vocabulary) : Table → List String
  | .vars => V.vars.names.map .ofList
  | .functions => V.functions.names.map .ofList
  | .prefixes => V.prefixes.names.map .ofList
  | .infixes => V.infixes.names.map .ofList
  | .suffixes => V.suffixes.names.map .ofList

def variableNamed? (V : Vocabulary) (name : String) : Option Variable := V.vars.get? name.toList

def functionNamed? (V : Vocabulary) (name : String) : Option Operator :=
  V.functions.get? name.toList

/-! ## Registration -/

/-- A table with one more name, or why the name cannot be entered. -/
def enter {α : Type} (table : Table) (t : Trie α) (name : String) (v : α) :
    Except RegistrationError (Trie α) :=
  if table.admits name.toList then
    match t.insert? name.toList v with
    | some t => .ok t
    | none => .error (.duplicate table name)
  else .error (.invalidName table name)

/-- Register a variable in a new cell. -/
def addVariable (V : Vocabulary) (σ : Store) (name : String) (kind : VariableKind) (x : Float) :
    Except RegistrationError (Variable × Vocabulary × Store) := do
  let (v, σ) := σ.alloc name kind x
  let vars ← enter .vars V.vars name v
  return (v, { V with vars }, σ)

/-- Register an operator or function. -/
def addOperator (V : Vocabulary) (op : Operator) : Except RegistrationError Vocabulary := do
  let ops ← enter op.fixity.table (V.operators op.fixity) op.name op
  return V.withOperators op.fixity ops

/-- Register a function of at least one argument. -/
def addFunction (V : Vocabulary) (name : String) (arity : Nat) (apply : List Float → Float) :
    Except RegistrationError Vocabulary :=
  if arity = 0 then .error (.zeroArity name) else V.addOperator (.called name arity apply)

/-- Remove a variable. Whoever holds its handle keeps it. -/
def dropVariable? (V : Vocabulary) (name : String) : Option (Variable × Vocabulary) := do
  let v ← V.variableNamed? name
  let vars ← V.vars.erase? name.toList
  return (v, { V with vars })

/-! ## Axes and subtraction -/

/-- The two free variables that a plot moves over the plane. -/
structure Axes where
  x : Variable
  y : Variable
  deriving DecidableEq, Repr

/-- The store with both axes at a point. -/
def Axes.set (axes : Axes) (σ : Store) (x y : Float) : Store := (σ.set axes.x x).set axes.y y

/-- A variable of a name, if it can be set. -/
def free? (V : Vocabulary) (name : String) : Option Variable :=
  (V.variableNamed? name).filter fun v => v.kind == .free

/-- The axes, if both names belong to variables that can be set. -/
def axes? (V : Vocabulary) : Option Axes := do
  return ⟨← V.free? "x", ← V.free? "y"⟩

end Vocabulary

end ImplicitPlot.Symbols

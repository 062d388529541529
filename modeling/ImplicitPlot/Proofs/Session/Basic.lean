import ImplicitPlot.Contour.Tracer
import ImplicitPlot.Proofs.Expression.Loads
import ImplicitPlot.Proofs.Relation.Splitting
import ImplicitPlot.Proofs.Symbols.NewCells

/-
  Sessions: all that a host can hold at once. There are vocabularies with their store, handles to
  variables, compiled programs, a machine to evaluate them and tracers, and any of them can refer
  to the same cells. Things are known by the numbers they came with; a call with a number that
  nothing has does nothing.

  A host keeps every handle that it is given: of a variable that it registered, looked up or
  dropped. `Session.Knows` lists where a session can refer to a variable.
-/
namespace ImplicitPlot

open Symbols Expression Contour

/-! ## Sources of programs -/

/-- The text of an expression or of a relation. -/
inductive Source where
  | expression (text : List Char)
  | relation (text : List Char)

namespace Source

/-- The program of a text in a vocabulary, if it can be compiled. -/
def program? (V : Vocabulary) : Source → Option Program
  | expression text => (Expression.compile V text).toOption
  | relation text => (Relation.build V text).toOption.map Prod.snd

/-- The variable tokens of a text: what is written, and the variable that it names. -/
def tokens (V : Vocabulary) : Source → List (List Char × Variable)
  | expression text => variableTokens V true text
  | relation text =>
    match Relation.Sides.ofText? text with
    | some s => variableTokens V true s.left ++ variableTokens V true s.right
    | none => []

variable {V : Vocabulary} {source : Source}

/-- A program loads the variables of the tokens of its text, one after the other. -/
theorem loads_of_program? {p : Program} (h : source.program? V = some p) :
    loads p.code = (source.tokens V).map Prod.snd := by
  cases source with
  | expression text =>
    rw [program?] at h
    cases hcompile : Expression.compile V text with
    | error e =>
      rw [hcompile] at h
      cases h
    | ok q =>
      rw [hcompile] at h
      cases h
      exact loads_of_compile hcompile
  | relation text =>
    rw [program?] at h
    cases hbuild : Relation.build V text with
    | error e =>
      rw [hbuild] at h
      cases h
    | ok built =>
      rw [hbuild] at h
      cases h
      obtain ⟨s, left, right, hsplit, -, hleft, hright, hprogram⟩ :=
        Relation.build_eq_ok_iff.mp hbuild
      rw [tokens, hsplit.ofText?_eq hright, hprogram]
      show loads (left.code ++ right.code ++ [Instruction.apply V.subtraction]) = _
      rw [loads_append, loads_append, loads_of_compile hleft, loads_of_compile hright,
        List.map_append]
      exact List.append_nil _

/-- A variable token is a name of the vocabulary, and names its variable. -/
theorem find?_of_mem_tokens {name : List Char} {v : Variable} (h : (name, v) ∈ source.tokens V) :
    V.find? .vars name = some (.var v) := by
  have hget : V.vars.get? name = some v := by
    cases source with
    | expression text => exact get?_of_mem_variableTokens h
    | relation text =>
      rw [tokens] at h
      split at h
      · obtain h | h := List.mem_append.mp h
        · exact get?_of_mem_variableTokens h
        · exact get?_of_mem_variableTokens h
      · cases h
  rw [Vocabulary.find?, hget]
  rfl

end Source

/-! ## Sessions -/

structure Session where
  library : Library
  handles : List Variable
  programs : List Program
  machine : Machine
  tracers : List Tracer

/-- What a host can do. -/
inductive Call where
  /-- Make, copy or edit a vocabulary. -/
  | move (m : Move)
  /-- Look up a variable. -/
  | look (i : Nat) (name : String)
  /-- Set a variable through a handle. -/
  | set (n : Nat) (x : Float)
  /-- Compile a text in a vocabulary. -/
  | compile (i : Nat) (source : Source)
  | evaluate (k : Nat)
  /-- Make a tracer with two variables for its axes. -/
  | equip (n m : Nat) (resolution : Resolution)
  | trace (j : Nat) (r : Relation) (canvas : Canvas)

/-- The variable that an answer hands out. -/
def Symbols.Answer.handle? : Answer → Option Variable
  | entered (.var v) | dropped v => some v
  | entered (.operator _) | refused _ | absent => none

namespace Session

def start : Session := ⟨⟨[], .empty⟩, [], [], .new, []⟩

def store (S : Session) : Store := S.library.source

/-- The axes of the tracers. -/
def axes (S : Session) : List Vocabulary.Axes := S.tracers.map (·.axes)

def withStore (S : Session) (σ : Store) : Session :=
  { S with library := ⟨S.library.items, σ⟩ }

/-- A tracer over two variables, if it is in order. -/
def tracer? (S : Session) (n m : Nat) (resolution : Resolution) : Option Tracer := do
  let x ← S.handles[n]?
  let y ← S.handles[m]?
  (Tracer.new ⟨x, y⟩ resolution).toOption

/-- The program of a text in a vocabulary of the session. -/
def program? (S : Session) (i : Nat) (source : Source) : Option Program :=
  S.library.items[i]?.bind source.program?

/-- The session after a call. -/
def step (S : Session) : Call → Session
  | .move m =>
    { S with
      library := (S.library.move m).2
      handles := S.handles ++ ((S.library.move m).1.bind Answer.handle?).toList }
  | .look i name =>
    { S with handles := S.handles ++ (S.library.items[i]?.bind (·.variableNamed? name)).toList }
  | .set n x =>
    match S.handles[n]? with
    | some v => S.withStore (S.store.write v x).2
    | none => S
  | .compile i source => { S with programs := S.programs ++ (S.program? i source).toList }
  | .evaluate k =>
    match S.programs[k]? with
    | some p => { S with machine := (S.machine.evaluate S.store p).2 }
    | none => S
  | .equip n m resolution => { S with tracers := S.tracers ++ (S.tracer? n m resolution).toList }
  | .trace j r canvas =>
    match S.tracers[j]? with
    | some t =>
      { S.withStore (t.trace S.store r canvas).store with
        tracers := S.tracers.set j (t.trace S.store r canvas).tracer }
    | none => S

/-- The session after some calls. -/
def after (S : Session) (calls : List Call) : Session := calls.foldl step S

/-- A session can refer to a variable: through a handle, a name, a program or a tracer. -/
inductive Knows (S : Session) (v : Variable) : Prop where
  | handle (h : v ∈ S.handles)
  | name (h : S.library.Has v)
  | load {p : Program} (hp : p ∈ S.programs) (h : v ∈ loads p.code)
  | axis {axes : Vocabulary.Axes} (haxes : axes ∈ S.axes) (h : v = axes.x ∨ v = axes.y)

/-- A call writes a cell: it sets a free variable of this cell, or traces with one as an axis. -/
def Writes (S : Session) (cell : Nat) : Call → Prop
  | .set n _ => ∃ v, S.handles[n]? = some v ∧ v.kind = .free ∧ v.cell = cell
  | .trace j _ _ => ∃ t, S.tracers[j]? = some t ∧
      (t.axes.x.kind = .free ∧ t.axes.x.cell = cell ∨ t.axes.y.kind = .free ∧ t.axes.y.cell = cell)
  | .move _ | .look _ _ | .compile _ _ | .evaluate _ | .equip _ _ _ => False

/-- No call of a list writes a cell. -/
def Spares (S : Session) (cell : Nat) : List Call → Prop
  | [] => True
  | c :: calls => ¬S.Writes cell c ∧ (S.step c).Spares cell calls

end Session

end ImplicitPlot

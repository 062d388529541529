import ImplicitPlot.PlotFile.Basic

/-
  The words of the command line.

  An option is written `--name VALUE` or `--name=VALUE`, and `-o` stands for `--output`, with
  its value in the next word or attached. A value in the next word may start with a dash only if
  it is a window. A double dash ends the options; what is no option is a relation. Each option
  can be given once.
-/
namespace ImplicitPlot.CommandLine

/-- An option with a value. -/
inductive Setting where
  | config
  | view
  | width
  | height
  | output
  deriving DecidableEq, Repr

/-- The name behind two dashes. -/
def Setting.name : Setting → String
  | config => "config"
  | view => "view"
  | width => "width"
  | height => "height"
  | output => "output"

def Setting.ofName? (name : List Char) : Option Setting :=
  [config, view, width, height, output].find? fun s => s.name.toList = name

/-- Why the words were not understood. -/
inductive UsageError where
  | unknown (word : String)
  | repeated (option : String)
  | missingValue (s : Setting)
  | badValue (s : Setting) (value : String)
  | unexpectedValue (option value : String)
  deriving DecidableEq, Repr

def UsageError.message : UsageError → String
  | unknown word => "unexpected argument '" ++ word ++ "' found"
  | repeated option => "the argument '--" ++ option ++ "' cannot be used multiple times"
  | missingValue s => "a value is required for '--" ++ s.name ++ "' but none was supplied"
  | badValue s value => "invalid value '" ++ value ++ "' for '--" ++ s.name ++ "'"
  | unexpectedValue option value =>
    "unexpected value '" ++ value ++ "' for '--" ++ option ++ "' found; no more were expected"

/-- What the words ask for, as far as they say it. -/
structure Options where
  relations : List String
  config? : Option String
  window? : Option Window
  width? : Option Nat
  height? : Option Nat
  withGrid : Bool
  output? : Option String

/-- What is to be done. -/
inductive Request where
  | help
  | plot (o : Options)

namespace Options

def empty : Options := ⟨[], none, none, none, none, false, none⟩

/-- A size in pixels: a decimal integer with or without a sign, from 0 to 2³² - 1. -/
def readSize? (value : String) : Option Nat :=
  let (negative, ds) := match value.toList with
    | '-' :: ds => (true, ds)
    | '+' :: ds => (false, ds)
    | ds => (false, ds)
  if ds.all Char.isDigit then
    (Number.readNatural? 10 ds).filter fun n => n < Number.twoTo 32 && (n == 0 || !negative)
  else none

/-- The path that is meant by a value, which may not be empty. -/
def readPath? (value : String) : Option String := if value.isEmpty then none else some value

/-- Enter the value of an option that was not given before. -/
def enter {α : Type} (s : Setting) (old : Option α) (read : String → Option α) (value : String) :
    Except UsageError (Option α) :=
  match read value with
  | none => .error (.badValue s value)
  | some a => if old.isSome then .error (.repeated s.name) else .ok (some a)

/-- The options with one more value. -/
def set (o : Options) (s : Setting) (value : String) : Except UsageError Options :=
  match s with
  | .config => return { o with config? := ← enter s o.config? readPath? value }
  | .view =>
    return { o with window? := ← enter s o.window? (Window.ofText · |>.toOption) value }
  | .width => return { o with width? := ← enter s o.width? readSize? value }
  | .height => return { o with height? := ← enter s o.height? readSize? value }
  | .output => return { o with output? := ← enter s o.output? readPath? value }

/-- A word that is taken for an option. -/
def isOption (word : String) : Bool :=
  match word.toList with
  | '-' :: _ :: _ => true
  | _ => false

/-- What a word of the command line is. -/
inductive Word where
  /-- The two dashes that end the options. -/
  | stop
  | help
  | grid
  /-- An option whose value is the next word. -/
  | pending (s : Setting)
  /-- An option with its value. -/
  | attached (s : Setting) (value : String)
  | relation (text : String)
  | wrong (e : UsageError)

/-- Read a word behind two dashes. -/
def longWord (cs : List Char) : Word :=
  let (name, rest) := cs.span (· ≠ '=')
  match Setting.ofName? name, rest with
  | some s, [] => .pending s
  | some s, _ :: value => .attached s (.ofList value)
  | none, [] =>
    if name = "grid".toList then .grid
    else if name = "help".toList then .help
    else .wrong (.unknown (.ofList ('-' :: '-' :: cs)))
  | none, _ :: value =>
    if name = "grid".toList ∨ name = "help".toList then
      .wrong (.unexpectedValue (.ofList name) (.ofList value))
    else .wrong (.unknown (.ofList ('-' :: '-' :: name)))

/-- Read a word behind one dash. -/
def shortWord (cs : List Char) : Word :=
  match cs with
  | ['o'] => .pending .output
  | 'o' :: '=' :: value => .attached .output (.ofList value)
  | 'o' :: value => .attached .output (.ofList value)
  | 'h' :: _ => .help
  | c :: _ => .wrong (.unknown (.ofList ['-', c]))
  | [] => .relation "-"

def Word.ofText (word : String) : Word :=
  match word.toList with
  | ['-', '-'] => .stop
  | '-' :: '-' :: cs => longWord cs
  | '-' :: cs => shortWord cs
  | _ => .relation word

/-- The options with some more relations. -/
def addRelations (o : Options) (texts : List String) : Options :=
  { o with relations := o.relations ++ texts }

/-- Read the words that follow what was read already. -/
def read (o : Options) : List String → Except UsageError Request
  | [] => .ok (.plot o)
  | word :: words =>
    match Word.ofText word with
    | .stop => .ok (.plot (o.addRelations words))
    | .help => .ok .help
    | .grid =>
      if o.withGrid then .error (.repeated "grid") else read { o with withGrid := true } words
    | .attached s value =>
      match o.set s value with
      | .ok o => read o words
      | .error e => .error e
    | .pending s =>
      match words with
      | [] => .error (.missingValue s)
      | value :: words =>
        if isOption value && s ≠ .view then .error (.missingValue s)
        else
          match o.set s value with
          | .ok o => read o words
          | .error e => .error e
    | .relation text => read (o.addRelations [text]) words
    | .wrong e => .error e

/-- The request of a command line. -/
def ofWords (words : List String) : Except UsageError Request := empty.read words

/-- The plot that a file and the options on top of it describe. -/
def override (o : Options) (p : PlotFile) : PlotFile :=
  { p with
    window := o.window?.getD p.window
    width := o.width?.getD p.width
    height := o.height?.getD p.height
    relations := p.relations ++ o.relations }

end Options

end ImplicitPlot.CommandLine

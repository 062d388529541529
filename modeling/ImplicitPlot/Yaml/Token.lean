import ImplicitPlot.Yaml.Scalar

/-
  Plot files as tokens.

  Outside brackets and braces, collections are delimited by columns. The reader keeps the columns
  of the open ones: a token further left closes them, and an entry, a key or a value further right
  opens one. Before a simple key nothing stands, so the place of the last thing that can be one is
  kept until the colon behind it is found or can no longer come: the key has to be in one line and
  within 1024 bytes of the colon. A key that nothing else can explain must be found.

  Anchors, aliases, tags and directives are not part of plot files, and are refused.
-/
namespace ImplicitPlot.Yaml

inductive Token where
  | documentStart
  | documentEnd
  | sequenceStart
  | mappingStart
  /-- The end of a collection that is delimited by columns. -/
  | blockEnd
  | openBracket
  | closeBracket
  | openBrace
  | closeBrace
  | comma
  /-- The dash in front of an entry. -/
  | entry
  /-- What stands in front of a key, written or not. -/
  | key
  /-- The colon in front of a value. -/
  | value
  | scalar (text : String) (isPlain : Bool)
  deriving DecidableEq, Repr

/-- Something that is a key if a colon follows. -/
structure KeyCandidate where
  start : Glyph
  /-- How many tokens there are before it. -/
  position : Nat
  /-- Whether only a key can stand there. -/
  isRequired : Bool

/-- The colon of a candidate cannot be here any more. -/
def KeyCandidate.isStale (k : KeyCandidate) (here : Glyph) : Bool :=
  k.start.line < here.line || k.start.index + 1024 < here.index

/-- What was read of a text. -/
structure Lexer where
  tokens : Array Token
  /-- The columns of the open block collections, innermost first. -/
  columns : List Nat
  /-- Whether a simple key can start here. -/
  keyAllowed : Bool
  candidate? : Option KeyCandidate
  /-- The candidates outside each open bracket and brace, innermost first. -/
  outer : List (Option KeyCandidate)

namespace Lexer

def start : Lexer := ⟨#[], [], true, none, []⟩

/-- Inside brackets or braces. -/
def inFlow (s : Lexer) : Bool := !s.outer.isEmpty

/-- The least column of what belongs to the innermost block collection. -/
def margin (s : Lexer) : Nat := s.columns.head?.elim 0 (· + 1)

def push (s : Lexer) (t : Token) : Lexer := { s with tokens := s.tokens.push t }

/-! ## Keys -/

/-- Give up a candidate for which there is no colon any more. -/
def refresh (here : Glyph) (candidate? : Option KeyCandidate) : Option (Option KeyCandidate) :=
  match candidate? with
  | none => some none
  | some k => if !k.isStale here then some k else if k.isRequired then none else some none

def refreshKeys (s : Lexer) (here : Glyph) : Option Lexer := do
  return { s with
    candidate? := ← refresh here s.candidate?
    outer := ← s.outer.mapM (refresh here) }

/-- Give up the candidate of this level, as something else follows. -/
def dropKey (s : Lexer) : Option Lexer :=
  if s.candidate?.any KeyCandidate.isRequired then none else some { s with candidate? := none }

/-- Remember a place where a key can start. -/
def noteKey (s : Lexer) (here : Glyph) : Option Lexer :=
  if s.keyAllowed then do
    let isRequired := !s.inFlow && s.columns.head? == some here.column
    return { ← s.dropKey with candidate? := some ⟨here, s.tokens.size, isRequired⟩ }
  else some s

/-! ## Columns -/

/-- Open a block collection, if a column is further right than those that are open. -/
def indent (s : Lexer) (column : Nat) (t : Token) (position : Nat) : Lexer :=
  if !s.inFlow && s.columns.head?.all (· < column) then
    { s with columns := column :: s.columns, tokens := s.tokens.insertIdxIfInBounds position t }
  else s

/-- Close the block collections further right than a column. -/
def dedent (s : Lexer) (column : Nat) : Lexer :=
  if s.inFlow then s
  else
    let closed := s.columns.takeWhile (column < ·)
    { s with
      columns := s.columns.dropWhile (column < ·)
      tokens := s.tokens ++ closed.map fun _ => Token.blockEnd }

/-- Close all block collections. -/
def dedentAll (s : Lexer) : Lexer :=
  if s.inFlow then s
  else { s with columns := [], tokens := s.tokens ++ s.columns.map fun _ => Token.blockEnd }

/-! ## Tokens -/

/-- Read a line that separates documents. -/
def document (s : Lexer) (t : Token) : Option Lexer := do
  return { (← s.dedentAll.dropKey).push t with keyAllowed := false }

/-- Read an opening bracket or brace. -/
def openFlow (s : Lexer) (here : Glyph) (t : Token) : Option Lexer := do
  let s ← s.noteKey here
  return { s.push t with
    keyAllowed := true, candidate? := none, outer := s.candidate? :: s.outer }

/-- Read a closing bracket or brace. -/
def closeFlow (s : Lexer) (t : Token) : Option Lexer := do
  let s ← s.dropKey
  return { s.push t with
    keyAllowed := false, candidate? := s.outer.head?.join, outer := s.outer.tail }

def comma (s : Lexer) : Option Lexer := do
  return { (← s.dropKey).push .comma with keyAllowed := true }

/-- Read the dash in front of an entry. -/
def entry (s : Lexer) (here : Glyph) : Option Lexer :=
  if s.inFlow || s.keyAllowed then do
    let s ← (s.indent here.column .sequenceStart s.tokens.size).dropKey
    return { s.push .entry with keyAllowed := true }
  else none

/-- Read the question mark in front of a key. -/
def key (s : Lexer) (here : Glyph) : Option Lexer :=
  if s.inFlow || s.keyAllowed then do
    let s ← (s.indent here.column .mappingStart s.tokens.size).dropKey
    return { s.push .key with keyAllowed := !s.inFlow }
  else none

/-- Read the colon in front of a value. The candidate, if there is one, is a key now. -/
def value (s : Lexer) (here : Glyph) : Option Lexer :=
  match s.candidate? with
  | some k =>
    let s := { s with
      tokens := s.tokens.insertIdxIfInBounds k.position .key, candidate? := none }
    let s := s.indent k.start.column .mappingStart k.position
    some { s.push .value with keyAllowed := false }
  | none =>
    if s.inFlow || s.keyAllowed then
      let s := s.indent here.column .mappingStart s.tokens.size
      some { s.push .value with keyAllowed := !s.inFlow }
    else none

/-- A character that starts no plain scalar. -/
def isIndicator (c : Char) : Bool := ",[]\x7b\x7d#&*!|>'\"%@\x60".toList.contains c

/-- Read a plain scalar. A line break behind it lets a key start again. -/
def plain (s : Lexer) (here : Glyph) (gs : List Glyph) : Option (Lexer × List Glyph) := do
  let s ← s.noteKey here
  let p ← Yaml.plain s.inFlow s.margin [] .none gs
  return ({ s.push (.scalar p.text true) with keyAllowed := p.isBroken }, p.rest)

/-- Read a quoted scalar behind its first quote. -/
def quoted (s : Lexer) (here : Glyph) (gs : List Glyph) : Option (Lexer × List Glyph) := do
  let s ← s.noteKey here
  let (text, rest) ← Yaml.quoted here.char [] .none gs
  return ({ s.push (.scalar text false) with keyAllowed := false }, rest)

/-- Read a block behind its first character. -/
def block (s : Lexer) (folded : Bool) (gs : List Glyph) : Option (Lexer × List Glyph) := do
  let s ← s.dropKey
  let (text, rest) ← block? folded s.margin gs
  return ({ s.push (.scalar text false) with keyAllowed := true }, rest)

/-- Read the token that a text starts with. -/
def step (s : Lexer) (here : Glyph) (rest : List Glyph) : Option (Lexer × List Glyph) := do
  let s ← s.refreshKeys here
  let s := s.dedent here.column
  let mark (s : Option Lexer) : Option (Lexer × List Glyph) := s.map (·, rest)
  let c := here.char
  if isMarker '-' (here :: rest) then return (← s.document .documentStart, rest.drop 2)
  else if isMarker '.' (here :: rest) then return (← s.document .documentEnd, rest.drop 2)
  else if c == '[' then mark (s.openFlow here .openBracket)
  else if c == '\x7b' then mark (s.openFlow here .openBrace)
  else if c == ']' then mark (s.closeFlow .closeBracket)
  else if c == '\x7d' then mark (s.closeFlow .closeBrace)
  else if c == ',' then mark s.comma
  else if c == '-' && endsWord rest then mark (s.entry here)
  else if c == '?' && (s.inFlow || endsWord rest) then mark (s.key here)
  else if c == ':' && (s.inFlow || endsWord rest) then mark (s.value here)
  else if (c == '|' || c == '>') && !s.inFlow then s.block (c == '>') rest
  else if c == '\'' || c == '"' then s.quoted here rest
  else if here.isBlank || here.isBreak || isIndicator c then none
  else s.plain here (here :: rest)

/-- Skip white space, comments and byte order marks. A line break lets a key start, but a tab does
not come where one could. -/
def skip (inFlow : Bool) : Bool → Bool → List Glyph → Bool × List Glyph
  | keyAllowed, _, [] => (keyAllowed, [])
  | keyAllowed, inComment, g :: gs =>
    if g.isBreak then skip inFlow (keyAllowed || !inFlow) false gs
    else if inComment || g.char == '#' then skip inFlow keyAllowed true gs
    else if g.isOrderMark || g.char == ' ' || (g.char == '\t' && (inFlow || !keyAllowed)) then
      skip inFlow keyAllowed false gs
    else (keyAllowed, g :: gs)

theorem skip_length_le (inFlow keyAllowed inComment : Bool) (gs : List Glyph) :
    (skip inFlow keyAllowed inComment gs).2.length ≤ gs.length := by
  fun_induction skip inFlow keyAllowed inComment gs <;> grind

/-- Read all tokens. A step that does not move on is refused. -/
def run (s : Lexer) (gs : List Glyph) : Option Lexer :=
  let next := skip s.inFlow s.keyAllowed false gs
  match h : next.2 with
  | [] => s.dedentAll.dropKey
  | here :: rest =>
    match step { s with keyAllowed := next.1 } here rest with
    | none => none
    | some (s', rest') =>
      have : rest.length < gs.length := by
        have := skip_length_le s.inFlow s.keyAllowed false gs
        grind
      if rest'.length ≤ rest.length then run s' rest' else none
termination_by gs.length

end Lexer

/-- The tokens of a text. -/
def tokens? (text : List Char) : Option (List Token) := do
  let s ← Lexer.start.run (← glyphs? text)
  return s.tokens.toList

end ImplicitPlot.Yaml

import ImplicitPlot.Yaml.Glyph
import ImplicitPlot.Number.Digits

/-
  Scalars of a plot file: plain, quoted and block text, each read from the glyphs it starts with.

  Inside plain and quoted scalars a line break is folded: one break becomes a space, of more the
  first is lost. Inside a folded block that holds between lines that are not indented further.
-/
namespace ImplicitPlot.Yaml

/-! ## White space between words -/

/-- What stands between two words of a scalar: blanks, or line breaks with the first apart. -/
structure Gap where
  blanks : List Char
  breaks? : Option (List Char × List Char)

namespace Gap

def none : Gap := ⟨[], .none⟩

/-- The gap behind an escaped line break, which is not there at all. -/
def escaped : Gap := ⟨[], some ([], [])⟩

def isEmpty (g : Gap) : Bool := g.blanks.isEmpty && g.breaks?.isNone

def isBroken (g : Gap) : Bool := g.breaks?.isSome

/-- Blanks count before the first break only. -/
def addBlank (g : Gap) (c : Char) : Gap :=
  if g.isBroken then g else { g with blanks := g.blanks ++ [c] }

def addBreak (g : Gap) (c : Char) : Gap :=
  match g.breaks? with
  | .none => ⟨[], some ([c], [])⟩
  | some (first, more) => ⟨[], some (first, more ++ [c])⟩

/-- What the gap contributes to the scalar. -/
def text (g : Gap) : List Char :=
  match g.breaks? with
  | .none => g.blanks
  | some (first, more) =>
    if first ≠ ['\n'] then first ++ more else if more.isEmpty then [' '] else more

end Gap

/-! ## Plain scalars -/

/-- A character that ends a plain scalar inside brackets or braces. -/
def isFlowMark (c : Char) : Bool := ",[]\x7b\x7d".toList.contains c

/-- A colon that ends a plain scalar, because white space follows. -/
def isValueMark (c : Char) (rest : List Glyph) : Bool := c == ':' && endsWord rest

/-- A colon that may not stand in a plain scalar inside brackets or braces. -/
def isStrayColon (c : Char) (rest : List Glyph) : Bool :=
  c == ':' && (rest.head?.map Glyph.char).any fun d => d == '?' || isFlowMark d

/-- What was read of a plain scalar, and whether a line break was read behind it. -/
structure Plain where
  text : String
  isBroken : Bool
  rest : List Glyph

/-- Read a plain scalar. `text` is what was read, backwards, and `gap` the white space behind
it. Outside brackets and braces a line has to start at column `margin` or behind it. -/
def plain (inFlow : Bool) (margin : Nat) : List Char → Gap → List Glyph → Option Plain
  | text, gap, [] => some ⟨.ofList text.reverse, gap.isBroken, []⟩
  | text, gap, g :: gs =>
    if g.isBreak then plain inFlow margin text (gap.addBreak g.char) gs
    else if g.isBlank then
      if gap.isBroken && g.char == '\t' && g.column < margin then none
      else plain inFlow margin text (gap.addBlank g.char) gs
    else if isDocumentMarker (g :: gs)
        || (!gap.isEmpty && (g.char == '#' || (!inFlow && g.column < margin))) then
      some ⟨.ofList text.reverse, gap.isBroken, g :: gs⟩
    else if inFlow && isStrayColon g.char gs then none
    else if isValueMark g.char gs || (inFlow && isFlowMark g.char) then
      some ⟨.ofList text.reverse, gap.isBroken, g :: gs⟩
    else plain inFlow margin (g.char :: (gap.text.reverse ++ text)) .none gs

/-! ## Quoted scalars -/

/-- What follows a backslash: a character, or a number of hexadecimal digits. -/
inductive Escape where
  | char (c : Char)
  | digits (count : Nat)

def escape? : Char → Option Escape
  | '0' => some (.char '\x00')
  | 'a' => some (.char '\x07')
  | 'b' => some (.char '\x08')
  | 't' | '\t' => some (.char '\t')
  | 'n' => some (.char '\n')
  | 'v' => some (.char '\x0B')
  | 'f' => some (.char '\x0C')
  | 'r' => some (.char '\r')
  | 'e' => some (.char '\x1B')
  | ' ' => some (.char ' ')
  | '"' => some (.char '"')
  | '/' => some (.char '/')
  | '\\' => some (.char '\\')
  | 'N' => some (.char '\u0085')
  | '_' => some (.char '\u00A0')
  | 'L' => some (.char '\u2028')
  | 'P' => some (.char '\u2029')
  | 'x' => some (.digits 2)
  | 'u' => some (.digits 4)
  | 'U' => some (.digits 8)
  | _ => none

/-- The character with a code of exactly `count` hexadecimal digits. -/
def coded? (count : Nat) (gs : List Glyph) : Option Char := do
  let code ← Number.readNatural? 16 ((gs.take count).map Glyph.char)
  if count ≤ gs.length ∧ code.isValidChar then some (.ofNat code) else none

/-- Read a scalar up to its closing quote. `text` is what was read, backwards. -/
def quoted (quote : Char) (text : List Char) (gap : Gap) (gs : List Glyph) :
    Option (String × List Glyph) :=
  match gs with
  | [] => none
  | g :: gs =>
    if g.isBreak then quoted quote text (gap.addBreak g.char) gs
    else if g.isBlank then quoted quote text (gap.addBlank g.char) gs
    else if isDocumentMarker (g :: gs) then none
    else
      let text := gap.text.reverse ++ text
      if g.char == quote then
        match gs with
        | h :: gs =>
          if quote == '\'' && h.char == quote then quoted quote (quote :: text) .none gs
          else some (.ofList text.reverse, h :: gs)
        | [] => some (.ofList text.reverse, [])
      else if g.char == '\\' && quote == '"' then
        match gs with
        | [] => none
        | e :: gs =>
          if e.isBreak then quoted quote text .escaped gs
          else
            match escape? e.char with
            | none => none
            | some (.char c) => quoted quote (c :: text) .none gs
            | some (.digits count) =>
              match coded? count gs with
              | none => none
              | some c => quoted quote (c :: text) .none (gs.drop count)
      else quoted quote (g.char :: text) .none gs
termination_by gs.length

/-! ## Block scalars -/

/-- What happens to the line breaks at the end of a block. -/
inductive Chomping where
  | strip
  | clip
  | keep
  deriving DecidableEq, Repr

/-- How a block is written. -/
structure BlockHeader where
  folded : Bool
  chomping : Chomping
  /-- How much further than its surroundings the block is indented, if that is said. -/
  increment? : Option Nat

namespace BlockHeader

def withChomping (h : BlockHeader) : List Glyph → BlockHeader × List Glyph
  | [] => (h, [])
  | g :: gs =>
    if g.char == '-' then ({ h with chomping := .strip }, gs)
    else if g.char == '+' then ({ h with chomping := .keep }, gs)
    else (h, g :: gs)

def withIncrement (h : BlockHeader) : List Glyph → Option (BlockHeader × List Glyph)
  | [] => some (h, [])
  | g :: gs =>
    if g.char == '0' then none
    else if g.char.isDigit then some ({ h with increment? := some (g.char.toNat - 48) }, gs)
    else some (h, g :: gs)

/-- The line behind a header holds blanks and a comment at most. -/
def endLine? (inComment : Bool) : List Glyph → Option (List Glyph)
  | [] => some []
  | g :: gs =>
    if g.isBreak then some gs
    else if inComment || g.char == '#' then endLine? true gs
    else if g.isBlank then endLine? false gs
    else none

/-- Read a header behind its first character. The two indicators come in either order. -/
def ofGlyphs? (folded : Bool) (gs : List Glyph) : Option (BlockHeader × List Glyph) := do
  let (h, afterChomping) := withChomping ⟨folded, .clip, none⟩ gs
  let (h, rest) ← h.withIncrement afterChomping
  let (h, rest) := if afterChomping.length = gs.length ∧ h.increment?.isSome then
    h.withChomping rest else (h, rest)
  return (h, ← endLine? false rest)

end BlockHeader

/-- The column of a block that does not say it: that of its first line with text, but not less
than where a line of spaces before it ends. A tab may not stand where this is found out. -/
def blockColumn? (least : Nat) : List Glyph → Option Nat
  | [] => some least
  | g :: gs =>
    if g.char == ' ' then blockColumn? (max least (g.column + 1)) gs
    else if g.char == '\t' then none
    else
      let least := max least g.column
      if g.isBreak then blockColumn? least gs else some least

/-- What was read of a block: its text backwards, the break behind it and the blank lines
behind that, whether its last line is indented further, and whether a line is being read. -/
structure Block where
  text : List Char
  lead : List Char
  blankLines : List Char
  isIndented : Bool
  inLine : Bool

namespace Block

/-- Start a line with a glyph. -/
def startLine (b : Block) (folded : Bool) (g : Glyph) : Block :=
  let folds := folded && b.lead == ['\n'] && !b.isIndented && !g.isBlank
  let lead := if !folds then b.lead else if b.blankLines.isEmpty then [' '] else []
  ⟨g.char :: (b.blankLines.reverse ++ lead.reverse ++ b.text), [], [], g.isBlank, true⟩

/-- Read the lines of a block at a column. -/
def lines (folded : Bool) (column : Nat) : Block → List Glyph → Option (Block × List Glyph)
  | b, [] => some (b, [])
  | b, g :: gs =>
    if b.inLine then
      if g.isBreak then
        lines folded column { b with lead := [g.char], blankLines := [], inLine := false } gs
      else lines folded column { b with text := g.char :: b.text } gs
    else if g.isBreak then
      lines folded column { b with blankLines := b.blankLines ++ [g.char] } gs
    else if g.column < column then
      if g.char == ' ' then lines folded column b gs
      else if g.char == '\t' then none
      else some (b, g :: gs)
    else lines folded column (b.startLine folded g) gs

/-- The text of a block that is over. -/
def close (b : Block) (chomping : Chomping) : String :=
  let tail := match chomping with
    | .strip => []
    | .clip => b.lead
    | .keep => b.lead ++ b.blankLines
  .ofList (b.text.reverse ++ tail)

end Block

/-- Read a block behind its first character; `margin` is the least column it can have. -/
def block? (folded : Bool) (margin : Nat) (gs : List Glyph) : Option (String × List Glyph) := do
  let (h, gs) ← BlockHeader.ofGlyphs? folded gs
  let column ← match h.increment? with
    | some n => some (margin - 1 + n)
    | none => blockColumn? (max margin 1) gs
  let (b, rest) ← Block.lines folded column ⟨[], [], [], false, false⟩ gs
  return (b.close h.chomping, rest)

end ImplicitPlot.Yaml

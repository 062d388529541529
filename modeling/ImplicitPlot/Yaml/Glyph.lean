/-
  The text of a plot file as a list of characters that know where they stand.

  YAML is read by columns and lines, so each character carries its place. A carriage return,
  a line feed, both in this order and a next-line character are one and the same line break.
  `glyphs?` refuses a text with a character that YAML does not admit.
-/
namespace ImplicitPlot.Yaml

/-- A character and its place; `index` counts the bytes of UTF-8 before it, and `column` the
characters before it in its line. -/
structure Glyph where
  char : Char
  index : Nat
  line : Nat
  column : Nat
  deriving DecidableEq, Repr

/-- The code points that a YAML text may hold, as closed ranges in increasing order. -/
def admittedRanges : List (Nat × Nat) :=
  [(0x9, 0xA), (0xD, 0xD), (0x20, 0x7E), (0x85, 0x85), (0xA0, 0xD7FF), (0xE000, 0xFFFD),
   (0x10000, 0x10FFFF)]

def isAdmitted (c : Char) : Bool :=
  admittedRanges.any fun (first, last) => first ≤ c.toNat && c.toNat ≤ last

/-- A line break after breaks of several spellings have been made one. -/
def isBreak (c : Char) : Bool := c == '\n' || c == '\u2028' || c == '\u2029'

namespace Glyph

def isBreak (g : Glyph) : Bool := Yaml.isBreak g.char

def isBlank (g : Glyph) : Bool := g.char == ' ' || g.char == '\t'

/-- A byte order mark at the start of a line. -/
def isOrderMark (g : Glyph) : Bool := g.column == 0 && g.char == '\uFEFF'

/-- The place behind a glyph that takes up `width` bytes. -/
def next (g : Glyph) (width : Nat) : Glyph :=
  if g.isBreak then { g with index := g.index + width, line := g.line + 1, column := 0 }
  else { g with index := g.index + width, column := g.column + 1 }

/-- The characters at a place and behind it; the character of `place` itself does not matter. -/
def place : Glyph → List Char → List Glyph
  | _, [] => []
  | g, '\r' :: '\n' :: cs => let g := { g with char := '\n' }; g :: place (g.next 2) cs
  | g, c :: cs =>
    let g := { g with char := if c == '\r' || c == '\u0085' then '\n' else c }
    g :: place (g.next c.utf8Size) cs

end Glyph

/-- The glyphs of a text. -/
def glyphs? (text : List Char) : Option (List Glyph) :=
  if text.all isAdmitted then some (Glyph.place ⟨' ', 0, 0, 0⟩ text) else none

/-- The text is over, or goes on with white space. -/
def endsWord : List Glyph → Bool
  | [] => true
  | g :: _ => g.isBlank || g.isBreak

/-- Three equal characters at the start of a line, alone there or before white space. -/
def isMarker (mark : Char) : List Glyph → Bool
  | a :: b :: c :: rest =>
    a.column == 0 && a.char == mark && b.char == mark && c.char == mark && endsWord rest
  | _ => false

/-- A line that separates documents. -/
def isDocumentMarker (gs : List Glyph) : Bool := isMarker '-' gs || isMarker '.' gs

end ImplicitPlot.Yaml

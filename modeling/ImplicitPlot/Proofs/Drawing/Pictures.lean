import ImplicitPlot.Proofs.Drawing.Markup
import ImplicitPlot.Proofs.Number.Reading

/-
  Pictures of relations, and how they are read back. A picture has a size and a group for each
  relation, with a title, a colour of the palette and segments; what is drawn for it is a document
  of markup (`Picture.toList_text`). A reader of documents that knows nothing of how they are
  written finds the picture again (`text_determines_picture`), whatever the titles are: the tags of
  the document do not depend on them.
-/
namespace ImplicitPlot.Drawing

open Number Contour Markup

/-! ## Pictures -/

/-- A colour of the palette. -/
abbrev Tint := { c : String // c ∈ palette }

/-- What is drawn for one relation. -/
structure RelationGroup where
  title : String
  tint : Tint
  segments : List Segment
  deriving DecidableEq

/-- A size in pixels and what is drawn for each relation. -/
structure Picture where
  width : Nat
  height : Nat
  groups : List RelationGroup
  deriving DecidableEq

/-- The marks of a group: its start, its segments and its end. -/
def RelationGroup.marks (g : RelationGroup) : List Mark :=
  Mark.opening g.title g.tint :: g.segments.map Mark.segment ++ [Mark.closing]

/-- The drawing of a picture. -/
def Picture.drawing (p : Picture) : Drawing := ⟨p.width, p.height, p.groups.flatMap (·.marks)⟩

/-! ## The tags of a picture -/

def svgTag (width height : Nat) : Tag :=
  .opens "svg" [("xmlns", "http://www.w3.org/2000/svg"), ("width", natText width),
    ("height", natText height), ("viewBox", "0 0 " ++ natText width ++ " " ++ natText height)]

def rectTag (width height : Nat) : Tag :=
  .stands "rect" [("width", natText width), ("height", natText height), ("fill", "#ffffff")]

def groupTag (tint : Tint) : Tag :=
  .opens "g" [("stroke", tint), ("stroke-width", "2"), ("stroke-linecap", "round")]

def lineTag (s : Segment) : Tag :=
  .stands "line" [("x1", intText s.start.x), ("y1", intText s.start.y), ("x2", intText s.stop.x),
    ("y2", intText s.stop.y)]

/-- The tags of a group of some colour with some segments. -/
def groupOutline (tint : Tint) (segments : List Segment) : List Tag :=
  groupTag tint :: Tag.opens "title" [] :: Tag.closes "title" :: segments.map lineTag ++
    [Tag.closes "g"]

/-- The tags of a picture with some groups. -/
def outline (width height : Nat) (groups : List (Tint × List Segment)) : List Tag :=
  svgTag width height :: rectTag width height ::
    groups.flatMap (fun g => groupOutline g.1 g.2) ++ [Tag.closes "svg"]

/-- A tag that ends its line. -/
def ending (t : Tag) : Piece := ⟨t, "\n"⟩

def RelationGroup.pieces (g : RelationGroup) : List Piece :=
  ending (groupTag g.tint) :: ⟨.opens "title" [], g.title⟩ :: ending (.closes "title") ::
    g.segments.map (fun s => ending (lineTag s)) ++ [ending (.closes "g")]

def Picture.pieces (p : Picture) : List Piece :=
  ending (svgTag p.width p.height) :: ending (rectTag p.width p.height) ::
    p.groups.flatMap (·.pieces) ++ [ending (.closes "svg")]

theorem RelationGroup.map_tag_pieces (g : RelationGroup) :
    g.pieces.map Piece.tag = groupOutline g.tint g.segments := by
  simp only [pieces, groupOutline, ending, List.map_cons, List.map_append, List.map_map,
    List.map_nil]
  rfl

theorem Picture.map_tag_pieces (p : Picture) :
    p.pieces.map Piece.tag =
      outline p.width p.height (p.groups.map fun g => (g.tint, g.segments)) := by
  simp only [pieces, outline, ending, List.map_cons, List.map_append, List.map_flatMap,
    RelationGroup.map_tag_pieces, List.flatMap_map, List.map_nil]

theorem isProper_svgTag (width height : Nat) : (svgTag width height).isProper = true := by
  have hkeys : areKeys ["xmlns", "width", "height", "viewBox"] = true := by decide
  rw [svgTag, Tag.isProper, Bool.and_eq_true_iff]
  exact ⟨by decide, hkeys⟩

theorem isProper_rectTag (width height : Nat) : (rectTag width height).isProper = true := by
  have hkeys : areKeys ["width", "height", "fill"] = true := by decide
  rw [rectTag, Tag.isProper, Bool.and_eq_true_iff]
  exact ⟨by decide, hkeys⟩

theorem isProper_groupTag (tint : Tint) : (groupTag tint).isProper = true := by
  have hkeys : areKeys ["stroke", "stroke-width", "stroke-linecap"] = true := by decide
  rw [groupTag, Tag.isProper, Bool.and_eq_true_iff]
  exact ⟨by decide, hkeys⟩

theorem isProper_lineTag (s : Segment) : (lineTag s).isProper = true := by
  have hkeys : areKeys ["x1", "y1", "x2", "y2"] = true := by decide
  rw [lineTag, Tag.isProper, Bool.and_eq_true_iff]
  exact ⟨by decide, hkeys⟩

theorem RelationGroup.isProper_of_mem_pieces (g : RelationGroup) :
    ∀ p ∈ g.pieces, p.tag.isProper = true := by
  simp only [pieces, List.cons_append, List.forall_mem_cons, List.forall_mem_append,
    List.forall_mem_map]
  exact ⟨isProper_groupTag g.tint, rfl, rfl, fun s _ => isProper_lineTag s, rfl,
    List.forall_mem_nil _⟩

theorem Picture.isProper_of_mem_pieces (p : Picture) : ∀ q ∈ p.pieces, q.tag.isProper = true := by
  simp only [pieces, List.cons_append, List.forall_mem_cons, List.forall_mem_append,
    List.forall_mem_flatMap]
  exact ⟨isProper_svgTag _ _, isProper_rectTag _ _, fun g _ => g.isProper_of_mem_pieces, rfl,
    List.forall_mem_nil _⟩

/-! ## Drawings as markup -/

theorem escape_append (s t : String) : escape (s ++ t) = escape s ++ escape t := by
  simp only [escape, String.toList_append, List.flatMap_append, String.ofList_append]

theorem flatMap_escapeChar {cs : List Char} (h : ∀ c ∈ cs, isSpecial c = false) :
    cs.flatMap escapeChar = cs := by
  induction cs with
  | nil => rfl
  | cons c cs ih =>
    obtain ⟨hc, hcs⟩ := List.forall_mem_cons.mp h
    rw [List.flatMap_cons, escapeChar_of_not_special hc, ih hcs, List.singleton_append]

theorem not_special_of_isDigit {c : Char} (h : c.isDigit = true) : isSpecial c = false := by
  refine Bool.eq_false_iff.mpr fun hc => ?_
  obtain rfl | rfl | rfl | rfl := special_cases hc <;> cases h

theorem escape_natText (n : Nat) : escape (natText n) = natText n := by
  have hdigits : (digits n).flatMap escapeChar = digits n :=
    flatMap_escapeChar fun _ hc => not_special_of_isDigit (isDigit_of_mem_digits hc)
  rw [escape, natText, String.toList_ofList, hdigits]

theorem escape_intText (i : Int) : escape (intText i) = intText i := by
  rw [intText, escape_append, escape_natText]
  split <;> rfl

theorem Tint.escape_eq (tint : Tint) : escape tint = tint := by
  have hall : ∀ c ∈ palette, escape c = c := by decide
  exact hall tint tint.2

theorem text_ending (t : Tag) : (ending t).text = '<' :: t.text ++ ['>', '\n'] := by
  have hline : escape "\n" = "\n" := by decide
  rw [ending, Piece.text, hline, String.toList_ofList]

/-! The texts below are compared character by character. Their literals are opened with
`String.toList_ofList`, one after the other; the kernel would have to decode them otherwise. -/

theorem toList_segmentText (s : Segment) : (segmentText s).toList = (ending (lineTag s)).text := by
  unfold segmentText
  simp only [text_ending, lineTag, Tag.text, attributeText, List.flatMap_cons, List.flatMap_nil,
    escape_intText, String.toList_append]
  repeat rw [String.toList_ofList]
  simp only [List.cons_append, List.nil_append, List.append_assoc]

theorem toList_opening (width height : Nat) (title : String) (tint : Tint) :
    ((Mark.opening title tint).text width height).toList =
      (ending (groupTag tint)).text ++ (Piece.text ⟨.opens "title" [], title⟩ ++
        (ending (.closes "title")).text) := by
  have htwo : escape "2" = "2" := by decide
  have hround : escape "round" = "round" := by decide
  unfold Mark.text
  rw [text_ending, text_ending, Piece.text]
  simp only [groupTag, Tag.text, attributeText, List.flatMap_cons, List.flatMap_nil,
    tint.escape_eq, htwo, hround, String.toList_append]
  repeat rw [String.toList_ofList]
  simp only [List.cons_append, List.nil_append, List.append_assoc]

theorem toList_closing (width height : Nat) :
    (Mark.closing.text width height).toList = (ending (.closes "g")).text := by
  unfold Mark.text
  rw [text_ending, Tag.text]
  repeat rw [String.toList_ofList]
  rfl

/-- The marks of a group are written as its pieces. -/
theorem RelationGroup.toList_marks (g : RelationGroup) (width height : Nat) :
    g.marks.flatMap (fun m => (m.text width height).toList) = g.pieces.flatMap Piece.text := by
  have hsegment : ∀ s : Segment, ((Mark.segment s).text width height).toList =
      (ending (lineTag s)).text := toList_segmentText
  simp only [marks, pieces, List.cons_append, List.flatMap_cons, List.flatMap_append,
    List.flatMap_map, List.flatMap_nil, List.append_nil, toList_opening, toList_closing, hsegment,
    List.append_assoc]

/-- A document is an element around its marks, with a rectangle before them. -/
theorem toList_text (d : Drawing) :
    d.text.toList = (ending (svgTag d.width d.height)).text ++
      ((ending (rectTag d.width d.height)).text ++
        (d.marks.flatMap (fun m => (m.text d.width d.height).toList) ++
          (ending (.closes "svg")).text)) := by
  have hnamespace : escape "http://www.w3.org/2000/svg" = "http://www.w3.org/2000/svg" := by decide
  have horigin : escape "0 0 " = "0 0 " := by decide
  have hblank : escape " " = " " := by decide
  have hwhite : escape "#ffffff" = "#ffffff" := by decide
  unfold Drawing.text
  simp only [text_ending, svgTag, rectTag, Tag.text, attributeText, List.flatMap_cons,
    List.flatMap_nil, escape_append, escape_natText, hnamespace, horigin, hblank, hwhite,
    String.toList_append, String.toList_join, List.flatMap_map]
  repeat rw [String.toList_ofList]
  simp only [List.cons_append, List.nil_append, List.append_assoc]

/-- The document of a picture is its pieces, one behind the other. -/
theorem Picture.toList_text (p : Picture) :
    p.drawing.text.toList = p.pieces.flatMap Piece.text := by
  have hmarks : p.drawing.marks.flatMap (fun m => (m.text p.width p.height).toList) =
      (p.groups.flatMap (·.pieces)).flatMap Piece.text := by
    rw [drawing, List.flatMap_assoc, List.flatMap_assoc]
    exact List.flatMap_congr fun g _ => g.toList_marks p.width p.height
  rw [Drawing.toList_text, pieces, List.cons_append, List.cons_append, List.flatMap_cons,
    List.flatMap_cons, List.flatMap_append, List.flatMap_singleton, ← hmarks]
  rfl

/-! ## Reading pictures -/

/-- The integer that digits denote, with a minus sign or without. -/
def readInteger? : List Char → Option Int
  | '-' :: ds => (readNatural? 10 ds).map fun n : Nat => -(n : Int)
  | ds => (readNatural? 10 ds).map fun n : Nat => (n : Int)

/-- The value of an attribute as a natural number, as an integer and as a colour. -/
def naturalAt? (key : String) (attributes : List (String × String)) : Option Nat := do
  readNatural? 10 (← attributes.lookup key).toList

def integerAt? (key : String) (attributes : List (String × String)) : Option Int := do
  readInteger? (← attributes.lookup key).toList

def tintAt? (key : String) (attributes : List (String × String)) : Option Tint := do
  let value ← attributes.lookup key
  if h : value ∈ palette then some ⟨value, h⟩ else none

/-- How far a picture was read. -/
inductive Reading where
  /-- Nothing was read. -/
  | start
  /-- The groups of a picture so far, all of them closed. -/
  | between (p : Picture)
  /-- A group has started. -/
  | opened (p : Picture) (tint : Tint)
  /-- Its title has started. -/
  | entitled (p : Picture) (tint : Tint) (title : String)
  /-- A group with its segments so far. -/
  | within (p : Picture) (g : RelationGroup)
  /-- A whole picture was read. -/
  | finished (p : Picture)

/-- What a tag and the text behind it add to a picture, where they can stand. -/
def Reading.next? : Reading → Piece → Option Reading
  | start, ⟨.opens "svg" attributes, _⟩ => do
    let width ← naturalAt? "width" attributes
    let height ← naturalAt? "height" attributes
    some (between ⟨width, height, []⟩)
  | between p, ⟨.stands "rect" _, _⟩ => some (between p)
  | between p, ⟨.opens "g" attributes, _⟩ => (tintAt? "stroke" attributes).map (opened p)
  | opened p tint, ⟨.opens "title" _, title⟩ => some (entitled p tint title)
  | entitled p tint title, ⟨.closes "title", _⟩ => some (within p ⟨title, tint, []⟩)
  | within p g, ⟨.stands "line" attributes, _⟩ => do
    let x1 ← integerAt? "x1" attributes
    let y1 ← integerAt? "y1" attributes
    let x2 ← integerAt? "x2" attributes
    let y2 ← integerAt? "y2" attributes
    some (within p { g with segments := g.segments ++ [⟨⟨x1, y1⟩, ⟨x2, y2⟩⟩] })
  | within p g, ⟨.closes "g", _⟩ => some (between { p with groups := p.groups ++ [g] })
  | between p, ⟨.closes "svg", _⟩ => some (finished p)
  | _, _ => none

/-- The picture that a document shows. -/
def readPicture? (text : String) : Option Picture := do
  let pieces ← pieces? text
  match ← pieces.foldlM Reading.next? .start with
  | .finished p => some p
  | _ => none

theorem readInteger?_of_isDigit {ds : List Char} (h : ∀ c ∈ ds, c.isDigit = true) :
    readInteger? ds = (readNatural? 10 ds).map fun n : Nat => (n : Int) := by
  cases ds with
  | nil => rfl
  | cons c ds =>
    have hc : c ≠ '-' := by
      rintro rfl
      exact absurd (h '-' List.mem_cons_self) (by decide)
    rw [readInteger?]
    exact fun _ hcons => hc (List.cons.inj hcons).1

theorem readInteger?_intText (i : Int) : readInteger? (intText i).toList = some i := by
  rw [intText, String.toList_append, natText, String.toList_ofList]
  by_cases hneg : i < 0
  · have hvalue : -(i.natAbs : Int) = i := by omega
    have hminus : "-".toList ++ digits i.natAbs = '-' :: digits i.natAbs := rfl
    rw [if_pos hneg, hminus, readInteger?, readNatural?_digits, Option.map_some, hvalue]
  · have hvalue : (i.natAbs : Int) = i := by omega
    have hplain : "".toList ++ digits i.natAbs = digits i.natAbs := rfl
    rw [if_neg hneg, hplain, readInteger?_of_isDigit fun _ => isDigit_of_mem_digits,
      readNatural?_digits, Option.map_some, hvalue]

theorem naturalAt?_of_lookup {key : String} {attributes : List (String × String)} {n : Nat}
    (h : attributes.lookup key = some (natText n)) : naturalAt? key attributes = some n := by
  rw [naturalAt?, h, Option.bind_eq_bind, Option.bind_some, natText, String.toList_ofList,
    readNatural?_digits]

theorem integerAt?_of_lookup {key : String} {attributes : List (String × String)} {i : Int}
    (h : attributes.lookup key = some (intText i)) : integerAt? key attributes = some i := by
  rw [integerAt?, h, Option.bind_eq_bind, Option.bind_some, readInteger?_intText]

theorem tintAt?_of_lookup {key : String} {attributes : List (String × String)} (tint : Tint)
    (h : attributes.lookup key = some tint.1) : tintAt? key attributes = some tint := by
  rw [tintAt?, h, Option.bind_eq_bind, Option.bind_some, dif_pos tint.2]

namespace Reading

theorem next?_svgTag (width height : Nat) (behind : String) :
    next? start ⟨svgTag width height, behind⟩ = some (between ⟨width, height, []⟩) := by
  simp only [svgTag, next?]
  rw [naturalAt?_of_lookup (n := width) rfl, naturalAt?_of_lookup (n := height) rfl]
  rfl

theorem next?_groupTag (p : Picture) (tint : Tint) (behind : String) :
    next? (between p) ⟨groupTag tint, behind⟩ = some (opened p tint) := by
  simp only [groupTag, next?]
  rw [tintAt?_of_lookup tint rfl]
  rfl

theorem next?_lineTag (p : Picture) (g : RelationGroup) (s : Segment) (behind : String) :
    next? (within p g) ⟨lineTag s, behind⟩ =
      some (within p { g with segments := g.segments ++ [s] }) := by
  simp only [lineTag, next?]
  rw [integerAt?_of_lookup (i := s.start.x) rfl, integerAt?_of_lookup (i := s.start.y) rfl,
    integerAt?_of_lookup (i := s.stop.x) rfl, integerAt?_of_lookup (i := s.stop.y) rfl]
  rfl

theorem foldlM_segments (p : Picture) (g : RelationGroup) (segments : List Segment) :
    (segments.map fun s => ending (lineTag s)).foldlM next? (within p g) =
      some (within p { g with segments := g.segments ++ segments }) := by
  induction segments generalizing g with
  | nil => rw [List.append_nil]; rfl
  | cons s segments ih =>
    rw [List.map_cons, List.foldlM_cons, ending, next?_lineTag, Option.bind_eq_bind,
      Option.bind_some, ih, List.append_assoc, List.singleton_append]

/-- The pieces of a group add the group. -/
theorem foldlM_group (p : Picture) (g : RelationGroup) :
    g.pieces.foldlM next? (between p) = some (between { p with groups := p.groups ++ [g] }) := by
  rw [RelationGroup.pieces, List.cons_append, List.foldlM_cons, ending, next?_groupTag,
    Option.bind_eq_bind, Option.bind_some, List.cons_append, List.foldlM_cons]
  have htitle : next? (opened p g.tint) ⟨.opens "title" [], g.title⟩ =
    some (entitled p g.tint g.title) := rfl
  have huntitle : next? (entitled p g.tint g.title) (ending (.closes "title")) =
    some (within p ⟨g.title, g.tint, []⟩) := rfl
  have hclose : next? (within p g) (ending (.closes "g")) =
    some (between { p with groups := p.groups ++ [g] }) := rfl
  rw [htitle, Option.bind_eq_bind, Option.bind_some, List.cons_append, List.foldlM_cons, huntitle,
    Option.bind_eq_bind, Option.bind_some, List.foldlM_append, foldlM_segments,
    Option.bind_eq_bind, Option.bind_some, List.nil_append, List.foldlM_cons, hclose]
  rfl

theorem foldlM_groups (p : Picture) (groups : List RelationGroup) :
    (groups.flatMap (·.pieces)).foldlM next? (between p) =
      some (between { p with groups := p.groups ++ groups }) := by
  induction groups generalizing p with
  | nil => rw [List.append_nil]; rfl
  | cons g groups ih =>
    rw [List.flatMap_cons, List.foldlM_append, foldlM_group, Option.bind_eq_bind, Option.bind_some,
      ih, List.append_assoc, List.singleton_append]

/-- The pieces of a picture are read as the picture. -/
theorem foldlM_pieces (p : Picture) : p.pieces.foldlM next? start = some (finished p) := by
  have hrect : next? (between ⟨p.width, p.height, []⟩) (ending (rectTag p.width p.height)) =
    some (between ⟨p.width, p.height, []⟩) := rfl
  have hclose : next? (between p) (ending (.closes "svg")) = some (finished p) := rfl
  rw [Picture.pieces, List.cons_append, List.foldlM_cons, ending, next?_svgTag,
    Option.bind_eq_bind, Option.bind_some, List.cons_append, List.foldlM_cons, hrect,
    Option.bind_eq_bind, Option.bind_some, List.foldlM_append, foldlM_groups, Option.bind_eq_bind,
    Option.bind_some, List.nil_append, List.foldlM_cons, hclose]
  rfl

end Reading

theorem Picture.pieces?_drawing (p : Picture) : pieces? p.drawing.text = some p.pieces :=
  pieces?_text p.isProper_of_mem_pieces p.toList_text

/-- The document of a picture is read as the picture. -/
theorem Picture.readPicture?_drawing (p : Picture) : readPicture? p.drawing.text = some p := by
  rw [readPicture?, p.pieces?_drawing, Option.bind_eq_bind, Option.bind_some, Reading.foldlM_pieces]
  rfl

/-- A document determines the picture that it was made of. Whatever the titles are, a reader that
splits the document at its markup and replaces entities finds the size and, group by group, the
colour, the title and the segments. The tags of the document do not depend on the titles, so no
title opens, closes or adds an element; and two texts that are escaped alike are the same. -/
theorem text_determines_picture :
    (∀ p : Picture, readPicture? p.drawing.text = some p ∧
      tags? p.drawing.text =
        some (outline p.width p.height (p.groups.map fun g => (g.tint, g.segments)))) ∧
    (∀ p q : Picture, p.drawing.text = q.drawing.text → p = q) ∧
    Function.Injective escape := by
  refine ⟨fun p => ⟨p.readPicture?_drawing, ?_⟩, fun p q h => ?_, escape_injective⟩
  · rw [tags?, p.pieces?_drawing, Option.map_some, p.map_tag_pieces]
  · have hsame : some p = some q := by
      rw [← p.readPicture?_drawing, h, q.readPicture?_drawing]
    exact Option.some.inj hsame

example : escape "</title><g>&amp;\"" = "&lt;/title&gt;&lt;g&gt;&amp;amp;&quot;" := rfl

end ImplicitPlot.Drawing

import ImplicitPlot.Proofs.Drawing.Pictures
import ImplicitPlot.Proofs.Expression.Alphabet
import ImplicitPlot.Proofs.Relation.Splitting

/-
  Well-formed drawings. XML 1.0 allows most characters, but of the control characters only the tab,
  the line feed and the carriage return, and no escape makes another one allowed. White space in a
  relation may be a vertical tab or a form feed, which are white space and not allowed, and titles
  keep them: the drawing of `x=x` with a vertical tab before the comparison is no well-formed
  document (`drawing_not_wellFormed_verticalTab`). These two characters are all that can go wrong
  (`wellFormed_iff_titles`).
-/
namespace ImplicitPlot

open Symbols Number

/-! ## Characters of documents -/

namespace Markup

open Drawing

/-- The code points of the characters that XML 1.0 allows, as closed ranges in increasing order. -/
def xmlRanges : List (Nat × Nat) :=
  [(0x9, 0xA), (0xD, 0xD), (0x20, 0xD7FF), (0xE000, 0xFFFD), (0x10000, 0x10FFFF)]

/-- A character that XML 1.0 allows. -/
def isXmlChar (c : Char) : Bool :=
  xmlRanges.any fun (first, last) => first ≤ c.toNat && c.toNat ≤ last

def IsXmlText (cs : List Char) : Prop := ∀ c ∈ cs, isXmlChar c = true

/-- A visible character of ASCII. -/
def isVisible (c : Char) : Bool := 0x21 ≤ c.toNat && c.toNat ≤ 0x7E

theorem isXmlChar_iff {c : Char} :
    isXmlChar c = true ↔ 0x9 ≤ c.toNat ∧ c.toNat ≤ 0xA ∨ c.toNat = 0xD ∨
      0x20 ≤ c.toNat ∧ c.toNat ≤ 0xD7FF ∨ 0xE000 ≤ c.toNat ∧ c.toNat ≤ 0xFFFD ∨
      0x10000 ≤ c.toNat ∧ c.toNat ≤ 0x10FFFF := by
  simp only [isXmlChar, xmlRanges, List.any_cons, List.any_nil, Bool.or_false, Bool.or_eq_true,
    Bool.and_eq_true, decide_eq_true_eq]
  omega

theorem isXmlChar_of_isVisible {c : Char} (h : isVisible c = true) : isXmlChar c = true := by
  simp only [isVisible, Bool.and_eq_true, decide_eq_true_eq] at h
  rw [isXmlChar_iff]
  omega

/-- Of the characters of white space, two are not allowed: the vertical tab and the form feed. -/
theorem isXmlChar_iff_of_isBlank {c : Char} (h : Text.isBlank c = true) :
    isXmlChar c = true ↔ c ≠ '\x0b' ∧ c ≠ '\x0c' := by
  have htab : c ≠ '\x0b' ↔ c.toNat ≠ 0xB := not_congr Char.toNat_inj.symm
  have hfeed : c ≠ '\x0c' ↔ c.toNat ≠ 0xC := not_congr Char.toNat_inj.symm
  simp only [Text.isBlank, Text.blankRanges, List.any_cons, List.any_nil, Bool.or_false,
    Bool.or_eq_true, Bool.and_eq_true, decide_eq_true_eq] at h
  rw [isXmlChar_iff, htab, hfeed]
  omega

theorem isVisible_of_isNameChar {c : Char} (h : isNameChar c = true) : isVisible c = true := by
  simp only [isNameChar, Char.isAlphanum, Char.isAlpha, Char.isUpper, Char.isLower, Char.isDigit,
    Bool.or_eq_true, Bool.and_eq_true, decide_eq_true_eq, beq_iff_eq, ge_iff_le,
    UInt32.le_iff_toNat_le] at h
  have hrange : (((65 ≤ c.toNat ∧ c.toNat ≤ 90) ∨ (97 ≤ c.toNat ∧ c.toNat ≤ 122)) ∨
      (48 ≤ c.toNat ∧ c.toNat ≤ 57)) ∨ c = '-' := h
  simp only [isVisible, Bool.and_eq_true, decide_eq_true_eq]
  rcases hrange with hrange | rfl
  · omega
  · decide

theorem isVisible_of_isDigit {c : Char} (h : c.isDigit = true) : isVisible c = true :=
  isVisible_of_isNameChar (by rw [isNameChar, Char.isAlphanum, h, Bool.or_true, Bool.true_or])

/-! ## Texts of documents -/

theorem isXmlText_of_all {cs : List Char} (h : cs.all isXmlChar = true) : IsXmlText cs :=
  List.all_eq_true.mp h

theorem isXmlText_append {cs ds : List Char} :
    IsXmlText (cs ++ ds) ↔ IsXmlText cs ∧ IsXmlText ds := List.forall_mem_append

theorem isXmlText_cons {c : Char} {cs : List Char} :
    IsXmlText (c :: cs) ↔ isXmlChar c = true ∧ IsXmlText cs := List.forall_mem_cons

theorem isXmlText_of_isVisible {cs : List Char} (h : cs.all isVisible = true) : IsXmlText cs :=
  fun c hc => isXmlChar_of_isVisible (List.all_eq_true.mp h c hc)

theorem isXmlText_escapeChar {c : Char} : IsXmlText (escapeChar c) ↔ isXmlChar c = true := by
  rcases hc : isSpecial c
  · rw [escapeChar_of_not_special hc, IsXmlText, List.forall_mem_singleton]
  · have hvisible : (escapeChar c).all isVisible = true ∧ isVisible c = true := by
      obtain rfl | rfl | rfl | rfl := special_cases hc <;> exact ⟨rfl, rfl⟩
    exact iff_of_true (isXmlText_of_isVisible hvisible.1) (isXmlChar_of_isVisible hvisible.2)

/-- Escaping neither brings in characters that are not allowed nor removes them. -/
theorem isXmlText_escape {s : String} : IsXmlText (escape s).toList ↔ IsXmlText s.toList := by
  rw [escape, String.toList_ofList, IsXmlText, List.forall_mem_flatMap]
  exact forall₂_congr fun _ _ => isXmlText_escapeChar

theorem isXmlText_natText (n : Nat) : IsXmlText (natText n).toList := by
  rw [natText, String.toList_ofList]
  exact fun c hc => isXmlChar_of_isVisible (isVisible_of_isDigit (isDigit_of_mem_digits hc))

theorem isXmlText_intText (i : Int) : IsXmlText (intText i).toList := by
  rw [intText, String.toList_append, isXmlText_append]
  refine ⟨isXmlText_of_isVisible ?_, isXmlText_natText i.natAbs⟩
  split <;> rfl

/-- The attributes of a tag. -/
def Tag.attributes : Tag → List (String × String)
  | opens _ attributes => attributes
  | closes _ => []
  | stands _ attributes => attributes

theorem isXmlText_of_isName {s : String} (h : isName s = true) : IsXmlText s.toList :=
  fun c hc => isXmlChar_of_isVisible (isVisible_of_isNameChar (all_isNameChar h c hc))

theorem isXmlText_attributes {attributes : List (String × String)}
    (hnames : ∀ a ∈ attributes, isName a.1 = true)
    (hvalues : ∀ a ∈ attributes, IsXmlText a.2.toList) :
    IsXmlText (attributes.flatMap attributeText) := by
  refine List.forall_mem_flatMap.mpr fun a ha => ?_
  have hname := isXmlText_of_isName (hnames a ha)
  have hvalue := isXmlText_escape.mpr (hvalues a ha)
  have htext : IsXmlText (attributeText a) := by
    rw [attributeText, isXmlText_append, isXmlText_append, isXmlText_append, isXmlText_cons]
    exact ⟨⟨⟨⟨rfl, hname⟩, isXmlText_of_isVisible rfl⟩, hvalue⟩, isXmlText_of_isVisible rfl⟩
  exact htext

/-- A tag with proper names and allowed values is written with allowed characters. -/
theorem Tag.isXmlText_text {t : Tag} (h : t.isProper = true)
    (hvalues : ∀ a ∈ t.attributes, IsXmlText a.2.toList) : IsXmlText t.text := by
  cases t with
  | opens name attributes =>
    obtain ⟨hname, hattributes⟩ := Bool.and_eq_true_iff.mp h
    rw [text, isXmlText_append]
    exact ⟨isXmlText_of_isName hname,
      isXmlText_attributes (isName_of_areKeys hattributes) hvalues⟩
  | closes name =>
    rw [text, isXmlText_cons]
    exact ⟨rfl, isXmlText_of_isName h⟩
  | stands name attributes =>
    obtain ⟨hname, hattributes⟩ := Bool.and_eq_true_iff.mp h
    rw [text, isXmlText_append, isXmlText_append]
    exact ⟨⟨isXmlText_of_isName hname,
      isXmlText_attributes (isName_of_areKeys hattributes) hvalues⟩, isXmlText_of_isVisible rfl⟩

theorem Piece.isXmlText_text {p : Piece} (h : IsXmlText p.tag.text) :
    IsXmlText p.text ↔ IsXmlText p.behind.toList := by
  rw [text, List.cons_append, isXmlText_cons, isXmlText_append, isXmlText_cons, isXmlText_escape]
  exact ⟨fun hp => hp.2.2.2, fun hp => ⟨rfl, h, rfl, hp⟩⟩

/-! ## Well-formed documents -/

/-- Tags that are whole elements, one behind the other. -/
inductive Nested : List Tag → Prop where
  | nil : Nested []
  | stands (name : String) (attributes : List (String × String)) {rest : List Tag}
      (hrest : Nested rest) : Nested (.stands name attributes :: rest)
  | element (name : String) (attributes : List (String × String)) {inside rest : List Tag}
      (hinside : Nested inside) (hrest : Nested rest) :
      Nested (Tag.opens name attributes :: inside ++ Tag.closes name :: rest)

/-- The pieces of one element, with nothing but white space behind it. -/
def IsElement (ps : List Piece) : Prop :=
  (∃ name attributes inside, Nested inside ∧
    ps.map Piece.tag = Tag.opens name attributes :: inside ++ [Tag.closes name]) ∧
  ∀ p ∈ ps.getLast?, p.behind.toList.all Char.isWhitespace = true

/-- A well-formed document: its characters are allowed, and it reads as markup that is one
element. -/
structure IsWellFormed (text : String) : Prop where
  allowed : IsXmlText text.toList
  element : ∃ ps, pieces? text = some ps ∧ IsElement ps

theorem Nested.append {ts us : List Tag} (hts : Nested ts) (hus : Nested us) :
    Nested (ts ++ us) := by
  induction hts with
  | nil => exact hus
  | stands name attributes _ ih => exact .stands name attributes ih
  | element name attributes hinside _ _ ih =>
    rw [List.append_assoc, List.cons_append, List.cons_append]
    exact .element name attributes hinside ih

theorem Nested.flatMap {α : Type} {f : α → List Tag} (h : ∀ a, Nested (f a)) (as : List α) :
    Nested (as.flatMap f) := by
  induction as with
  | nil => exact .nil
  | cons a as ih => exact (h a).append ih

end Markup

/-! ## Pictures as documents -/

namespace Drawing

open Markup

theorem nested_groupOutline (tint : Tint) (segments : List Contour.Segment) :
    Nested (groupOutline tint segments) := by
  have hlines : Nested (segments.map lineTag) := by
    rw [List.map_eq_flatMap]
    exact Nested.flatMap (fun _ => .stands _ _ .nil) segments
  exact .element "g" _ (.element "title" [] .nil hlines) .nil

theorem Picture.isElement_pieces (p : Picture) : IsElement p.pieces := by
  refine ⟨⟨"svg", _, rectTag p.width p.height :: _, .stands _ _ ?_, p.map_tag_pieces⟩, ?_⟩
  · exact Nested.flatMap (fun _ => nested_groupOutline _ _) _
  · rw [pieces, List.getLast?_concat]
    rintro q ⟨⟩
    rfl

theorem isXmlText_of_tint (tint : Tint) : IsXmlText tint.1.toList := by
  have hall : ∀ c ∈ palette, c.toList.all isVisible = true := by decide
  exact isXmlText_of_isVisible (hall tint tint.2)

theorem isXmlText_svgTag (width height : Nat) : IsXmlText (svgTag width height).text := by
  refine Tag.isXmlText_text (isProper_svgTag width height) ?_
  have hbox : IsXmlText ("0 0 " ++ natText width ++ " " ++ natText height).toList := by
    simp only [String.toList_append, isXmlText_append]
    exact ⟨⟨⟨isXmlText_of_all rfl, isXmlText_natText width⟩, isXmlText_of_all rfl⟩,
      isXmlText_natText height⟩
  simp only [svgTag, Tag.attributes, List.forall_mem_cons]
  exact ⟨isXmlText_of_all rfl, isXmlText_natText width, isXmlText_natText height, hbox,
    List.forall_mem_nil _⟩

theorem isXmlText_rectTag (width height : Nat) : IsXmlText (rectTag width height).text := by
  refine Tag.isXmlText_text (isProper_rectTag width height) ?_
  simp only [rectTag, Tag.attributes, List.forall_mem_cons]
  exact ⟨isXmlText_natText width, isXmlText_natText height, isXmlText_of_all rfl,
    List.forall_mem_nil _⟩

theorem isXmlText_groupTag (tint : Tint) : IsXmlText (groupTag tint).text := by
  refine Tag.isXmlText_text (isProper_groupTag tint) ?_
  simp only [groupTag, Tag.attributes, List.forall_mem_cons]
  exact ⟨isXmlText_of_tint tint, isXmlText_of_all rfl, isXmlText_of_all rfl, List.forall_mem_nil _⟩

theorem isXmlText_lineTag (s : Contour.Segment) : IsXmlText (lineTag s).text := by
  refine Tag.isXmlText_text (isProper_lineTag s) ?_
  simp only [lineTag, Tag.attributes, List.forall_mem_cons]
  exact ⟨isXmlText_intText _, isXmlText_intText _, isXmlText_intText _, isXmlText_intText _,
    List.forall_mem_nil _⟩

theorem isXmlText_ending {t : Tag} (h : IsXmlText t.text) : IsXmlText (ending t).text := by
  have hline : IsXmlText "\n".toList := isXmlText_of_all rfl
  exact (Piece.isXmlText_text h).mpr hline

theorem isXmlText_closes {name : String} (h : isName name = true) :
    IsXmlText (Tag.closes name).text := Tag.isXmlText_text h (List.forall_mem_nil _)

theorem RelationGroup.isXmlText_pieces (g : RelationGroup) :
    (∀ q ∈ g.pieces, IsXmlText q.text) ↔ IsXmlText g.title.toList := by
  have htitle : IsXmlText (Piece.text ⟨.opens "title" [], g.title⟩) ↔ IsXmlText g.title.toList :=
    Piece.isXmlText_text (Tag.isXmlText_text rfl (List.forall_mem_nil _))
  simp only [pieces, List.cons_append, List.forall_mem_cons, List.forall_mem_append,
    List.forall_mem_map, htitle]
  exact ⟨fun h => h.2.1, fun h => ⟨isXmlText_ending (isXmlText_groupTag g.tint), h,
    isXmlText_ending (isXmlText_closes rfl), fun s _ => isXmlText_ending (isXmlText_lineTag s),
    isXmlText_ending (isXmlText_closes rfl), List.forall_mem_nil _⟩⟩

/-- The characters of a drawing are allowed if those of its titles are. -/
theorem Picture.isXmlText_text (p : Picture) :
    IsXmlText p.drawing.text.toList ↔ ∀ g ∈ p.groups, IsXmlText g.title.toList := by
  have hgroups : (∀ q ∈ p.groups.flatMap (·.pieces), IsXmlText q.text) ↔
      ∀ g ∈ p.groups, IsXmlText g.title.toList := by
    rw [List.forall_mem_flatMap]
    exact forall₂_congr fun g _ => g.isXmlText_pieces
  rw [p.toList_text, IsXmlText, List.forall_mem_flatMap, pieces, List.cons_append,
    List.cons_append, List.forall_mem_cons, List.forall_mem_cons, List.forall_mem_append]
  exact ⟨fun h => hgroups.mp h.2.2.1, fun h =>
    ⟨isXmlText_ending (isXmlText_svgTag p.width p.height),
      isXmlText_ending (isXmlText_rectTag p.width p.height), hgroups.mpr h,
      List.forall_mem_singleton.mpr (isXmlText_ending (isXmlText_closes rfl))⟩⟩

/-- A drawing is well formed if the characters of its titles are allowed. -/
theorem Picture.isWellFormed_iff (p : Picture) :
    IsWellFormed p.drawing.text ↔ ∀ g ∈ p.groups, IsXmlText g.title.toList :=
  ⟨fun h => p.isXmlText_text.mp h.allowed, fun h => ⟨p.isXmlText_text.mpr h,
    p.pieces, p.pieces?_drawing, p.isElement_pieces⟩⟩

end Drawing

/-! ## Relations as titles -/

open Markup

theorem Symbols.Vocabulary.isVisible_standard {σ : Store} {table : Table} {name : List Char}
    {entry : Entry} (h : (Vocabulary.standard σ).1.find? table name = some entry) :
    ∀ c ∈ name, isVisible c = true :=
  Preset.standard.forall_mem_name σ isVisible (by decide) h

theorem Symbols.Vocabulary.Alphabet.visible_or_blank {σ : Store} {c : Char}
    (h : (Vocabulary.standard σ).1.Alphabet c) : isVisible c = true ∨ Text.isBlank c = true := by
  cases h with
  | blank h => exact .inr h
  | digit h => exact .inl (isVisible_of_isDigit h)
  | point => exact .inl rfl
  | openGroup => exact .inl rfl
  | closeGroup => exact .inl rfl
  | comma => exact .inl rfl
  | name hname hc => exact .inl (Vocabulary.isVisible_standard hname c hc)

namespace Relation

/-- A relation in the standard vocabulary is written with visible characters of ASCII and with white
space. -/
theorem visible_or_blank {σ : Store} {text : String} {r : Relation}
    (h : ofText? (Vocabulary.standard σ).1 text = .ok r) :
    ∀ c ∈ text.toList, isVisible c = true ∨ Text.isBlank c = true := by
  obtain ⟨s, p, q, hsplit, hleft, hright, -⟩ := ofText?_eq_ok_iff.mp h
  have hsymbol : s.comparison.symbol.toList.all isVisible = true := by
    cases s.comparison <;> rfl
  rw [hsplit.text_eq, List.forall_mem_append, List.forall_mem_append]
  exact ⟨⟨fun c hc => (Expression.alphabet_of_compile hleft c hc).visible_or_blank,
    fun c hc => .inl (List.all_eq_true.mp hsymbol c hc)⟩,
    fun c hc => (Expression.alphabet_of_compile hright c hc).visible_or_blank⟩

/-- What a relation in the standard vocabulary is written with is allowed in a document, but for
the vertical tab and the form feed. -/
theorem isXmlText_iff {σ : Store} {text : String} {r : Relation}
    (h : ofText? (Vocabulary.standard σ).1 text = .ok r) :
    IsXmlText text.toList ↔ '\x0b' ∉ text.toList ∧ '\x0c' ∉ text.toList := by
  constructor
  · intro hallowed
    exact ⟨fun hmem => absurd (hallowed _ hmem) (by decide),
      fun hmem => absurd (hallowed _ hmem) (by decide)⟩
  · rintro ⟨htab, hfeed⟩ c hc
    rcases visible_or_blank h c hc with hvisible | hblank
    · exact isXmlChar_of_isVisible hvisible
    · refine (isXmlChar_iff_of_isBlank hblank).mpr ⟨?_, ?_⟩
      · rintro rfl
        exact htab hc
      · rintro rfl
        exact hfeed hc

end Relation

namespace Drawing

/-- A picture that is titled with relations of the standard vocabulary is a well-formed document
unless a vertical tab or a form feed is in one of them: these two are white space, and no relation
holds another character that XML 1.0 does not allow. Each title that holds neither is written with
allowed characters only. -/
theorem wellFormed_iff_titles (p : Picture) (h : ∀ g ∈ p.groups, ∃ σ r,
    Relation.ofText? (Vocabulary.standard σ).1 g.title = .ok r) :
    (∀ g ∈ p.groups, IsXmlText (escape g.title).toList ↔
      '\x0b' ∉ g.title.toList ∧ '\x0c' ∉ g.title.toList) ∧
    (IsWellFormed p.drawing.text ↔ ∀ g ∈ p.groups,
      '\x0b' ∉ g.title.toList ∧ '\x0c' ∉ g.title.toList) := by
  have htitles : ∀ g ∈ p.groups, IsXmlText g.title.toList ↔
      '\x0b' ∉ g.title.toList ∧ '\x0c' ∉ g.title.toList := by
    intro g hg
    obtain ⟨σ, r, hr⟩ := h g hg
    exact Relation.isXmlText_iff hr
  refine ⟨fun g hg => isXmlText_escape.trans (htitles g hg), ?_⟩
  rw [p.isWellFormed_iff]
  exact forall₂_congr htitles

set_option maxRecDepth 4000 in
/-- The first axis of the standard vocabulary as an expression. -/
theorem compile_x : Expression.compile (Vocabulary.standard .empty).1 ['x'] =
    .ok ⟨[.load ⟨"x", .free, 2⟩]⟩ :=
  Expression.compile_variable (by decide) rfl rfl rfl

/-- Any white space may stand before a comparison. -/
theorem exists_ofText?_blank {b : Char} (hb : Text.isBlank b = true) (k : Relation.Comparison)
    {text : String} (htext : text.toList = 'x' :: b :: k.symbol.toList ++ ['x']) :
    ∃ r, Relation.ofText? (Vocabulary.standard .empty).1 text = .ok r := by
  have hspelled := (Vocabulary.Reachable.standard .empty).spelled
  have hleft : Expression.compile (Vocabulary.standard .empty).1 ['x', b] =
      .ok ⟨[.load ⟨"x", .free, 2⟩]⟩ :=
    Expression.compile_append_blanks hspelled compile_x (List.forall_mem_singleton.mpr hb)
  have hplain : b ≠ '=' ∧ b ≠ '<' ∧ b ≠ '>' ∧ b ≠ '!' := by
    refine ⟨?_, ?_, ?_, ?_⟩ <;> rintro rfl <;> exact absurd hb (by decide)
  have hsplit : Relation.Sides.Splits ⟨['x', b], k, ['x']⟩ text.toList := by
    refine ⟨htext, ?_, fun _ hbang => hplain.2.2.2 (Option.some.inj hbang),
      fun _ hequals => absurd (Option.some.inj hequals) (by decide)⟩
    exact List.forall_mem_cons.mpr ⟨by decide,
      List.forall_mem_singleton.mpr ⟨hplain.1, hplain.2.1, hplain.2.2.1⟩⟩
  exact ⟨_, Relation.ofText?_eq_ok_iff.mpr ⟨_, _, _, hsplit, hleft, compile_x, rfl⟩⟩

/-- A picture with two relations, one of them with a comparison that is escaped, the other with white
space that is not ASCII. -/
theorem wellFormed_iff_titles_spaced :
    ∃ p : Picture, p.groups.map RelationGroup.title = ["x <=x", "x\u00a0=x"] ∧
      (∀ g ∈ p.groups, ∃ σ r, Relation.ofText? (Vocabulary.standard σ).1 g.title = .ok r) ∧
      IsWellFormed p.drawing.text := by
  let p : Picture := ⟨20, 10, [⟨"x <=x", ⟨"#d62728", by decide⟩, [⟨⟨0, 1⟩, ⟨-2, 3⟩⟩]⟩,
    ⟨"x\u00a0=x", ⟨"#1f77b4", by decide⟩, []⟩]⟩
  have haccepted : ∀ g ∈ p.groups, ∃ σ r,
      Relation.ofText? (Vocabulary.standard σ).1 g.title = .ok r := by
    refine List.forall_mem_cons.mpr ⟨⟨.empty, ?_⟩, List.forall_mem_singleton.mpr ⟨.empty, ?_⟩⟩
    · exact exists_ofText?_blank (b := ' ') (by decide) .lessEqual rfl
    · exact exists_ofText?_blank (b := '\u00a0') (by decide) .equal rfl
  have hplain : ∀ g ∈ p.groups, '\x0b' ∉ g.title.toList ∧ '\x0c' ∉ g.title.toList := by
    decide
  exact ⟨p, rfl, haccepted, (wellFormed_iff_titles p haccepted).2.mpr hplain⟩

/-- A vertical tab before the comparison is white space to the scanner, stays in the title and is
not allowed in the document. -/
theorem drawing_not_wellFormed_verticalTab :
    (∃ r, Relation.ofText? (Vocabulary.standard .empty).1 "x\x0b=x" = .ok r) ∧
    ¬IsXmlText (escape "x\x0b=x").toList ∧
    ¬IsWellFormed
      (Picture.drawing ⟨10, 10, [⟨"x\x0b=x", ⟨"#d62728", by decide⟩, []⟩]⟩).text := by
  have hnot : ¬IsXmlText "x\x0b=x".toList := fun h => absurd (h '\x0b' (by decide)) (by decide)
  refine ⟨exists_ofText?_blank (b := '\x0b') (by decide) .equal rfl,
    mt isXmlText_escape.mp hnot, fun h => ?_⟩
  exact hnot ((Picture.isWellFormed_iff _).mp h _ (List.mem_singleton_self _))

end Drawing

end ImplicitPlot

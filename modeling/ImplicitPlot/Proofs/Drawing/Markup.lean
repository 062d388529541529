import Mathlib.Data.List.Basic
import ImplicitPlot.Drawing.Svg

/-
  Markup and its reader. A document is split at every `<` and at the `>` behind it into tags, each
  with the text that stands behind it; a tag is split at its quotes into its attributes, and the
  entities of texts and values are replaced by the characters they stand for.

  What was written with names for tags and attributes, and with escaped texts and values, is read
  back as it was (`pieces?_text`): nothing that is escaped can be taken for a tag, a quote or an
  entity (`unescape?_escape`, `not_mem_escape`).
-/
namespace ImplicitPlot.Markup

open Drawing

/-! ## Entities -/

/-- A text with its entities replaced, if every ampersand in it starts one of the four. -/
def unescape? : List Char → Option (List Char)
  | '&' :: 'a' :: 'm' :: 'p' :: ';' :: cs => (unescape? cs).map ('&' :: ·)
  | '&' :: 'l' :: 't' :: ';' :: cs => (unescape? cs).map ('<' :: ·)
  | '&' :: 'g' :: 't' :: ';' :: cs => (unescape? cs).map ('>' :: ·)
  | '&' :: 'q' :: 'u' :: 'o' :: 't' :: ';' :: cs => (unescape? cs).map ('"' :: ·)
  | '&' :: _ => none
  | c :: cs => (unescape? cs).map (c :: ·)
  | [] => some []

/-- The characters that are written as entities. -/
def isSpecial (c : Char) : Bool := c == '&' || c == '<' || c == '>' || c == '"'

theorem escapeChar_of_not_special {c : Char} (h : isSpecial c = false) : escapeChar c = [c] := by
  unfold escapeChar
  split
  case h_5 => rfl
  all_goals cases h

theorem special_cases {c : Char} (h : isSpecial c = true) :
    c = '&' ∨ c = '<' ∨ c = '>' ∨ c = '"' := by
  simpa only [isSpecial, Bool.or_eq_true, beq_iff_eq, or_assoc] using h

theorem unescape?_escapeChar_append (c : Char) (cs : List Char) :
    unescape? (escapeChar c ++ cs) = (unescape? cs).map (c :: ·) := by
  rcases hc : isSpecial c
  · rw [escapeChar_of_not_special hc]
    have hamp : c ≠ '&' := by rintro rfl; cases hc
    simp [unescape?, hamp]
  · obtain rfl | rfl | rfl | rfl := special_cases hc <;> rfl

/-- Escaping is undone by replacing entities. -/
theorem unescape?_escape (text : String) : unescape? (escape text).toList = some text.toList := by
  rw [escape, String.toList_ofList]
  induction text.toList with
  | nil => rfl
  | cons c cs ih => rw [List.flatMap_cons, unescape?_escapeChar_append, ih, Option.map_some]

theorem escape_injective : Function.Injective escape := by
  intro s t h
  have hread : some s.toList = some t.toList := by rw [← unescape?_escape, h, unescape?_escape]
  exact String.toList_injective (Option.some.inj hread)

/-- Escaped text holds none of the characters that markup is split at. -/
theorem not_mem_escape {c : Char} (hc : c = '<' ∨ c = '>' ∨ c = '"') (text : String) :
    c ∉ (escape text).toList := by
  rw [escape, String.toList_ofList, List.mem_flatMap]
  rintro ⟨d, -, hd⟩
  rcases hspecial : isSpecial d
  · rw [escapeChar_of_not_special hspecial, List.mem_singleton] at hd
    subst hd
    obtain rfl | rfl | rfl := hc <;> cases hspecial
  · obtain rfl | rfl | rfl | rfl := special_cases hspecial <;>
      obtain rfl | rfl | rfl := hc <;> exact absurd hd (by decide)

/-! ## Tags -/

/-- A character of the name of an element or attribute. -/
def isNameChar (c : Char) : Bool := c.isAlphanum || c == '-'

/-- A name starts with a letter. -/
def isName (s : String) : Bool := s.toList.head?.any Char.isAlpha && s.toList.all isNameChar

/-- A tag: the start of an element, its end, or an element without content. Attributes are pairs of
a name and a value. -/
inductive Tag where
  | opens (name : String) (attributes : List (String × String))
  | closes (name : String)
  | stands (name : String) (attributes : List (String × String))
  deriving DecidableEq

/-- Whether some texts can name the attributes of a tag: all are names, and no two are the same. -/
def areKeys (keys : List String) : Bool := keys.all isName && decide keys.Nodup

def Tag.isProper : Tag → Bool
  | opens name attributes => isName name && areKeys (attributes.map Prod.fst)
  | closes name => isName name
  | stands name attributes => isName name && areKeys (attributes.map Prod.fst)

/-- The text of an attribute. -/
def attributeText (a : String × String) : List Char :=
  ' ' :: a.1.toList ++ ['=', '"'] ++ (escape a.2).toList ++ ['"']

/-- The text of a tag between its angle brackets. -/
def Tag.text : Tag → List Char
  | opens name attributes => name.toList ++ attributes.flatMap attributeText
  | closes name => '/' :: name.toList
  | stands name attributes => name.toList ++ attributes.flatMap attributeText ++ ['/']

/-- The name of an attribute with a blank before it and an equals sign behind it. -/
def attributeName? : List Char → Option String
  | ' ' :: cs =>
    match cs.splitOn '=' with
    | [name, []] => some (.ofList name)
    | _ => none
  | _ => none

/-- The attributes in a text that was split at its quotes, with what follows them. -/
def attributes? : List (List Char) → Option (List (String × String) × List Char)
  | [] => none
  | [rest] => some ([], rest)
  | key :: value :: parts => do
    let name ← attributeName? key
    let value ← unescape? value
    let (attributes, rest) ← attributes? parts
    some ((name, .ofList value) :: attributes, rest)

/-- A tag that is not the end of an element. A slash behind its attributes says that the element
has no content. -/
def startTag? (cs : List Char) : Option Tag := do
  let name := String.ofList (cs.takeWhile isNameChar)
  let (attributes, rest) ← attributes? ((cs.dropWhile isNameChar).splitOn '"')
  match rest with
  | [] => some (.opens name attributes)
  | ['/'] => some (.stands name attributes)
  | _ => none

/-- A tag with any names. -/
def looseTag? : List Char → Option Tag
  | '/' :: name => some (.closes (.ofList name))
  | cs => startTag? cs

/-- The tag between two angle brackets. -/
def tag? (cs : List Char) : Option Tag := (looseTag? cs).filter Tag.isProper

/-! ## Documents -/

/-- A tag and the text behind it. -/
structure Piece where
  tag : Tag
  behind : String
  deriving DecidableEq

def Piece.text (p : Piece) : List Char := '<' :: p.tag.text ++ '>' :: (escape p.behind).toList

/-- What stands behind a `<` up to the next one. -/
def piece? (cs : List Char) : Option Piece :=
  match cs.splitOn '>' with
  | [inside, behind] => do
    let tag ← tag? inside
    let behind ← unescape? behind
    some ⟨tag, .ofList behind⟩
  | _ => none

/-- The tags of a document with the texts behind them, if it starts with a tag. -/
def pieces? (text : String) : Option (List Piece) :=
  match text.toList.splitOn '<' with
  | [] :: parts => parts.mapM piece?
  | _ => none

/-- The tags of a document. -/
def tags? (text : String) : Option (List Tag) := (pieces? text).map (List.map Piece.tag)

/-! ## Reading what was written -/

theorem all_isNameChar {s : String} (h : isName s = true) : ∀ c ∈ s.toList, isNameChar c = true := by
  rw [isName, Bool.and_eq_true, List.all_eq_true] at h
  exact h.2

theorem not_mem_of_isName {s : String} (h : isName s = true) {c : Char}
    (hc : isNameChar c = false) : c ∉ s.toList := by
  intro hmem
  rw [all_isNameChar h c hmem] at hc
  cases hc

theorem attributeName?_text {s : String} (h : isName s = true) :
    attributeName? (' ' :: s.toList ++ ['=']) = some s := by
  have hsplit : (s.toList ++ ['=']).splitOn '=' = [s.toList, []] := by
    rw [List.splitOn_append_cons_self_of_not_mem (not_mem_of_isName h rfl), List.splitOn_nil]
  simp only [attributeName?, List.cons_append, hsplit, String.ofList_toList]

theorem attributes?_text {attributes : List (String × String)}
    (h : ∀ a ∈ attributes, isName a.1 = true) {rest : List Char} (hrest : '"' ∉ rest) :
    attributes? ((attributes.flatMap attributeText ++ rest).splitOn '"') =
      some (attributes, rest) := by
  induction attributes with
  | nil => rw [List.flatMap_nil, List.nil_append, List.splitOn_eq_singleton hrest]; rfl
  | cons a attributes ih =>
    obtain ⟨hname, h⟩ := List.forall_mem_cons.mp h
    have hkey : '"' ∉ ' ' :: a.1.toList ++ ['='] := by
      simp [not_mem_of_isName hname (c := '"') rfl]
    have hsplit : (List.flatMap attributeText (a :: attributes) ++ rest).splitOn '"' =
        (' ' :: a.1.toList ++ ['=']) :: (escape a.2).toList ::
          (attributes.flatMap attributeText ++ rest).splitOn '"' := by
      rw [← List.splitOn_append_cons_self_of_not_mem (not_mem_escape (.inr (.inr rfl)) a.2),
        ← List.splitOn_append_cons_self_of_not_mem hkey]
      simp only [List.flatMap_cons, attributeText, List.append_assoc, List.cons_append,
        List.nil_append]
    rw [hsplit, attributes?, attributeName?_text hname, unescape?_escape, ih h]
    simp only [Option.bind_eq_bind, Option.bind_some, String.ofList_toList]

/-- The text behind the name of a tag does not go on with the name. -/
theorem takeWhile_isNameChar {s : String} (h : isName s = true) {rest : List Char}
    (hrest : ∀ c ∈ rest.head?, isNameChar c = false) :
    (s.toList ++ rest).takeWhile isNameChar = s.toList ∧
      (s.toList ++ rest).dropWhile isNameChar = rest := by
  have hstop : rest.takeWhile isNameChar = [] ∧ rest.dropWhile isNameChar = rest := by
    cases rest with
    | nil => exact ⟨rfl, rfl⟩
    | cons c rest =>
      have hc := hrest c rfl
      exact ⟨List.takeWhile_cons_of_neg (by rw [hc]; decide),
        List.dropWhile_cons_of_neg (by rw [hc]; decide)⟩
  rw [List.takeWhile_append_of_pos (all_isNameChar h), hstop.1, List.append_nil,
    List.dropWhile_append_of_pos (all_isNameChar h), hstop.2]
  exact ⟨rfl, rfl⟩

theorem startTag?_text {name : String} (hname : isName name = true)
    {attributes : List (String × String)} (hattributes : ∀ a ∈ attributes, isName a.1 = true)
    {rest : List Char} (hrest : rest = [] ∨ rest = ['/']) :
    startTag? (name.toList ++ (attributes.flatMap attributeText ++ rest)) =
      match rest with
      | [] => some (.opens name attributes)
      | _ => some (.stands name attributes) := by
  have hstop : ∀ c ∈ (attributes.flatMap attributeText ++ rest).head?, isNameChar c = false := by
    intro c hc
    cases attributes with
    | nil => obtain rfl | rfl := hrest <;> cases hc; rfl
    | cons a attributes => cases hc; rfl
  have hquote : '"' ∉ rest := by obtain rfl | rfl := hrest <;> decide
  obtain ⟨hbefore, hbehind⟩ := takeWhile_isNameChar hname hstop
  rw [startTag?, hbefore, hbehind, attributes?_text hattributes hquote, String.ofList_toList]
  obtain rfl | rfl := hrest <;> rfl

theorem looseTag?_of_isName {name : String} (h : isName name = true) (cs : List Char) :
    looseTag? (name.toList ++ cs) = startTag? (name.toList ++ cs) := by
  have hslash := not_mem_of_isName h (c := '/') rfl
  rcases hlist : name.toList with _ | ⟨c, name⟩
  · rw [isName, hlist] at h
    cases h
  · have hc : c ≠ '/' := by
      rintro rfl
      exact hslash (hlist ▸ List.mem_cons_self)
    simp only [List.cons_append]
    rw [looseTag?]
    exact fun _ hcons => hc (List.cons.inj hcons).1

theorem isName_of_areKeys {attributes : List (String × String)}
    (h : areKeys (attributes.map Prod.fst) = true) : ∀ a ∈ attributes, isName a.1 = true := by
  rw [areKeys, Bool.and_eq_true, List.all_eq_true] at h
  exact List.forall_mem_map.mp h.1

/-- A tag with proper names is read back. -/
theorem tag?_text {t : Tag} (h : t.isProper = true) : tag? t.text = some t := by
  have hread : looseTag? t.text = some t := by
    cases t with
    | opens name attributes =>
      obtain ⟨hname, hattributes⟩ := Bool.and_eq_true_iff.mp h
      rw [Tag.text, looseTag?_of_isName hname, ← List.append_nil (attributes.flatMap _),
        startTag?_text hname (isName_of_areKeys hattributes) (.inl rfl)]
    | closes name => rw [Tag.text, looseTag?, String.ofList_toList]
    | stands name attributes =>
      obtain ⟨hname, hattributes⟩ := Bool.and_eq_true_iff.mp h
      rw [Tag.text, List.append_assoc, looseTag?_of_isName hname,
        startTag?_text hname (isName_of_areKeys hattributes) (.inr rfl)]
  rw [tag?, hread, Option.filter_some_pos h]

theorem not_mem_attributes {attributes : List (String × String)}
    (h : ∀ a ∈ attributes, isName a.1 = true) {c : Char} (hc : c = '<' ∨ c = '>') :
    c ∉ attributes.flatMap attributeText := by
  rw [List.mem_flatMap]
  rintro ⟨a, ha, hmem⟩
  have hkey : c ∉ a.1.toList := not_mem_of_isName (h a ha) (by obtain rfl | rfl := hc <;> rfl)
  have hvalue : c ∉ (escape a.2).toList := not_mem_escape (hc.imp_right .inl) a.2
  simp only [attributeText, List.mem_append, List.mem_cons, List.not_mem_nil, or_false, hkey,
    hvalue] at hmem
  obtain rfl | rfl := hc <;> simp at hmem

/-- A tag with proper names holds no angle brackets. -/
theorem Tag.not_mem_text {t : Tag} (h : t.isProper = true) {c : Char} (hc : c = '<' ∨ c = '>') :
    c ∉ t.text := by
  have hnoname : isNameChar c = false := by obtain rfl | rfl := hc <;> rfl
  have hslash : c ≠ '/' := by obtain rfl | rfl := hc <;> decide
  cases t with
  | opens name attributes =>
    obtain ⟨hname, hattributes⟩ := Bool.and_eq_true_iff.mp h
    simp only [text, List.mem_append, not_or]
    exact ⟨not_mem_of_isName hname hnoname,
      not_mem_attributes (isName_of_areKeys hattributes) hc⟩
  | closes name =>
    simp only [text, List.mem_cons, not_or]
    exact ⟨hslash, not_mem_of_isName h hnoname⟩
  | stands name attributes =>
    obtain ⟨hname, hattributes⟩ := Bool.and_eq_true_iff.mp h
    simp only [text, List.mem_append, List.mem_singleton, not_or]
    exact ⟨⟨not_mem_of_isName hname hnoname,
      not_mem_attributes (isName_of_areKeys hattributes) hc⟩, hslash⟩

theorem piece?_text {p : Piece} (h : p.tag.isProper = true) :
    piece? (p.tag.text ++ '>' :: (escape p.behind).toList) = some p := by
  have hsplit : (p.tag.text ++ '>' :: (escape p.behind).toList).splitOn '>' =
      [p.tag.text, (escape p.behind).toList] := by
    rw [List.splitOn_append_cons_self_of_not_mem (Tag.not_mem_text h (.inr rfl)),
      List.splitOn_eq_singleton (not_mem_escape (.inr (.inl rfl)) p.behind)]
  simp only [piece?, hsplit, tag?_text h, unescape?_escape, Option.bind_eq_bind, Option.bind_some,
    String.ofList_toList]

theorem splitOn_flatMap_text {ps : List Piece} (h : ∀ p ∈ ps, p.tag.isProper = true)
    {front : List Char} (hfront : '<' ∉ front) :
    (front ++ ps.flatMap Piece.text).splitOn '<' =
      front :: ps.map fun p => p.tag.text ++ '>' :: (escape p.behind).toList := by
  induction ps generalizing front with
  | nil => rw [List.flatMap_nil, List.append_nil, List.splitOn_eq_singleton hfront, List.map_nil]
  | cons p ps ih =>
    obtain ⟨hp, h⟩ := List.forall_mem_cons.mp h
    have hbody : '<' ∉ p.tag.text ++ '>' :: (escape p.behind).toList := by
      simp only [List.mem_append, List.mem_cons, not_or]
      exact ⟨Tag.not_mem_text hp (.inl rfl), by decide, not_mem_escape (.inl rfl) p.behind⟩
    rw [List.map_cons, ← ih h hbody, ← List.splitOn_append_cons_self_of_not_mem hfront]
    rfl

/-- A document written as tags with proper names, each with the text behind it escaped, is read back
as these tags and texts. -/
theorem pieces?_text {text : String} {ps : List Piece} (h : ∀ p ∈ ps, p.tag.isProper = true)
    (htext : text.toList = ps.flatMap Piece.text) : pieces? text = some ps := by
  have hsplit : text.toList.splitOn '<' =
      [] :: ps.map fun p => p.tag.text ++ '>' :: (escape p.behind).toList := by
    rw [htext, ← splitOn_flatMap_text h List.not_mem_nil]
    rfl
  simp only [pieces?, hsplit]
  clear hsplit htext
  induction ps with
  | nil => rfl
  | cons p ps ih =>
    obtain ⟨hp, h⟩ := List.forall_mem_cons.mp h
    rw [List.map_cons, List.mapM_cons, piece?_text hp, ih h]
    rfl

example : pieces? "<a x=\"1\">&lt;<b/></a>" =
    some [⟨.opens "a" [("x", "1")], "<"⟩, ⟨.stands "b" [], ""⟩, ⟨.closes "a", ""⟩] := by
  decide

end ImplicitPlot.Markup

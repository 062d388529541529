import ImplicitPlot.Proofs.Relation.Evaluable
import ImplicitPlot.Proofs.Expression.Running

/-
  How the text of a relation is split. `Sides.Splits` says it without a scan: the left side holds
  none of the characters that are a comparison by themselves, and the comparison is spelled as
  long as the text allows. A text has at most one such split (`Sides.Splits.unique`), and the scan
  finds it unless the comparison starts at the last byte (`Sides.ofText?_eq_some_iff`). Since no
  expression is empty, the sides of a relation are the sides of its split, and its program is that
  of the left side, that of the right side, and a subtraction.
-/
namespace ImplicitPlot.Relation

open Symbols Expression

/-! ## Splits -/

/-- A text is split around a comparison: the left side holds no `=`, `<` or `>`, an `=` does not
belong to a `!=`, and a `<` or `>` does not belong to a `<=` or `>=`. -/
structure Sides.Splits (s : Sides) (text : List Char) : Prop where
  text_eq : text = s.left ++ s.comparison.symbol.toList ++ s.right
  left_plain : ∀ c ∈ s.left, c ≠ '=' ∧ c ≠ '<' ∧ c ≠ '>'
  no_bang : s.comparison = .equal → s.left.getLast? ≠ some '!'
  no_equals : s.comparison = .less ∨ s.comparison = .greater → s.right.head? ≠ some '='

/-- Some comparison is spelled in a text and starts before its last byte. -/
def HasComparison (text : List Char) : Prop :=
  ∃ (front rest : List Char) (k : Comparison), text = front ++ k.symbol.toList ++ rest ∧
    Text.byteLength front + 1 < Text.byteLength text

/-! ## Comparisons at one place -/

namespace Comparison

theorem byteLength_pos {cs : List Char} (h : cs ≠ []) : 0 < Text.byteLength cs := by
  cases cs with
  | nil => exact absurd rfl h
  | cons c cs =>
    have hc := c.utf8Size_pos
    rw [Text.byteLength_cons]
    omega

/-- A comparison is spelled with `!` first, or with a character that is one by itself. -/
theorem exists_symbol (k : Comparison) :
    ∃ c cs, k.symbol.toList = c :: cs ∧ (c = '=' ∨ c = '<' ∨ c = '>' ∨ (c = '!' ∧ cs = ['='])) := by
  cases k
  · exact ⟨'=', [], rfl, by simp⟩
  · exact ⟨'!', ['='], rfl, by simp⟩
  · exact ⟨'<', [], rfl, by simp⟩
  · exact ⟨'<', ['='], rfl, by simp⟩
  · exact ⟨'>', [], rfl, by simp⟩
  · exact ⟨'>', ['='], rfl, by simp⟩

theorem eq_equal_of_symbol {k : Comparison} {cs : List Char} (h : k.symbol.toList = '=' :: cs) :
    k = equal := by
  cases k <;> simp [symbol] at h ⊢

theorem spelled_of_at? {text : List Char} {k : Comparison} (h : at? text = some k) :
    1 < Text.byteLength text ∧
      ∃ rest, text = k.symbol.toList ++ rest ∧
        (k = less ∨ k = greater → rest.head? ≠ some '=') := by
  have hlong : ∀ (c d : Char) (cs : List Char), 1 < Text.byteLength (c :: d :: cs) := by
    intro c d cs
    have hc := c.utf8Size_pos
    have hd := d.utf8Size_pos
    simp only [Text.byteLength_cons]
    omega
  unfold at? at h
  split at h
  · cases h
    exact ⟨hlong _ _ _, _, rfl, by simp⟩
  · cases h
    exact ⟨hlong _ _ _, _, rfl, by simp⟩
  · cases h
    exact ⟨hlong _ _ _, _, rfl, by simp⟩
  · rename_i d cs hd
    cases h
    refine ⟨hlong _ _ _, d :: cs, rfl, fun _ heq => ?_⟩
    cases heq
    exact hd rfl
  · cases h
    exact ⟨hlong _ _ _, _, rfl, by simp⟩
  · rename_i d cs hd
    cases h
    refine ⟨hlong _ _ _, d :: cs, rfl, fun _ heq => ?_⟩
    cases heq
    exact hd rfl
  · cases h

theorem at?_of_spelled {k : Comparison} {rest : List Char}
    (hlong : 1 < Text.byteLength (k.symbol.toList ++ rest))
    (hrest : k = less ∨ k = greater → rest.head? ≠ some '=') :
    at? (k.symbol.toList ++ rest) = some k := by
  cases k with
  | notEqual => rfl
  | lessEqual => rfl
  | greaterEqual => rfl
  | equal =>
    cases rest with
    | nil => exact absurd hlong (by decide)
    | cons d cs => rfl
  | less =>
    cases rest with
    | nil => exact absurd hlong (by decide)
    | cons d cs =>
      have hd : d = '=' → False := fun heq => hrest (Or.inl rfl) (by rw [heq]; rfl)
      show at? ('<' :: d :: cs) = _
      simp only [at?]
  | greater =>
    cases rest with
    | nil => exact absurd hlong (by decide)
    | cons d cs =>
      have hd : d = '=' → False := fun heq => hrest (Or.inr rfl) (by rw [heq]; rfl)
      show at? ('>' :: d :: cs) = _
      simp only [at?]

/-- A comparison starts a text of more than one byte exactly if the text goes on as it is spelled
and not as a longer one is. -/
theorem at?_eq_some_iff {text : List Char} {k : Comparison} :
    at? text = some k ↔ 1 < Text.byteLength text ∧
      ∃ rest, text = k.symbol.toList ++ rest ∧
        (k = less ∨ k = greater → rest.head? ≠ some '=') := by
  refine ⟨spelled_of_at?, ?_⟩
  rintro ⟨hlong, rest, rfl, hrest⟩
  exact at?_of_spelled hlong hrest

/-- Where a comparison is spelled, that one or a longer one starts. -/
theorem isSome_at? (k : Comparison) {rest : List Char}
    (h : 1 < Text.byteLength (k.symbol.toList ++ rest)) :
    (at? (k.symbol.toList ++ rest)).isSome = true := by
  by_cases hshort : (k = less ∨ k = greater) ∧ rest.head? = some '='
  · obtain ⟨hk, hhead⟩ := hshort
    cases rest with
    | nil => cases hhead
    | cons d cs =>
      cases hhead
      rcases hk with rfl | rfl <;> rfl
  · have hk : at? (k.symbol.toList ++ rest) = some k :=
      at?_eq_some_iff.mpr ⟨h, rest, rfl, fun hk heq => hshort ⟨hk, heq⟩⟩
    rw [hk]
    rfl

theorem isSome_at?_of_plain {c : Char} (hc : c = '=' ∨ c = '<' ∨ c = '>') {cs : List Char}
    (h : 1 < Text.byteLength (c :: cs)) : (at? (c :: cs)).isSome = true := by
  rcases hc with rfl | rfl | rfl
  · exact isSome_at? equal h
  · exact isSome_at? less h
  · exact isSome_at? greater h

end Comparison

/-! ## The first comparison of a text -/

namespace Sides

theorem ofText?_cons_of_some {c : Char} {cs : List Char} {k : Comparison}
    (h : Comparison.at? (c :: cs) = some k) :
    ofText? (c :: cs) = some ⟨[], k, (c :: cs).drop k.symbol.length⟩ := by
  rw [ofText?, h]

theorem ofText?_cons_of_none {c : Char} {cs : List Char} (h : Comparison.at? (c :: cs) = none) :
    ofText? (c :: cs) = (ofText? cs).map fun s => { s with left := c :: s.left } := by
  rw [ofText?, h]

theorem Splits.cons_eq {c d : Char} {left right cs : List Char} {k : Comparison}
    (h : Splits ⟨d :: left, k, right⟩ (c :: cs)) :
    c = d ∧ cs = left ++ k.symbol.toList ++ right := by
  have htext := h.text_eq
  rw [List.cons_append, List.cons_append, List.cons.injEq] at htext
  exact htext

/-- No comparison starts inside the left side of a split. -/
theorem Splits.at?_eq_none {c : Char} {left right cs : List Char} {k : Comparison}
    (h : Splits ⟨c :: left, k, right⟩ (c :: cs)) : Comparison.at? (c :: cs) = none := by
  rcases hat : Comparison.at? (c :: cs) with _ | k'
  · rfl
  exfalso
  obtain ⟨-, rest, htext, -⟩ := Comparison.at?_eq_some_iff.mp hat
  obtain ⟨d, ds, hsymbol, hd⟩ := k'.exists_symbol
  rw [hsymbol, List.cons_append, List.cons.injEq] at htext
  obtain ⟨rfl, hcs⟩ := htext
  obtain ⟨hequals, hless, hgreater⟩ := h.left_plain c List.mem_cons_self
  -- only `!=` could start here, and then its `=` is in the left side or is the comparison
  obtain ⟨rfl, rfl⟩ : c = '!' ∧ ds = ['='] := by
    rcases hd with hd | hd | hd | hd
    · exact absurd hd hequals
    · exact absurd hd hless
    · exact absurd hd hgreater
    · exact hd
  have hsplit := h.cons_eq.2
  rw [hcs] at hsplit
  cases left with
  | nil =>
    obtain ⟨e, es, hk, -⟩ := k.exists_symbol
    rw [hk] at hsplit
    cases hsplit
    exact h.no_bang (Comparison.eq_equal_of_symbol hk) rfl
  | cons e es =>
    cases hsplit
    exact (h.left_plain '=' (List.mem_cons_of_mem _ List.mem_cons_self)).1 rfl

theorem splits_nil {k : Comparison} {rest : List Char}
    (h : k = .less ∨ k = .greater → rest.head? ≠ some '=') :
    Splits ⟨[], k, rest⟩ (k.symbol.toList ++ rest) where
  text_eq := rfl
  left_plain _ hc := by cases hc
  no_bang _ := by simp
  no_equals := h

theorem Splits.tail {c : Char} {left right cs : List Char} {k : Comparison}
    (h : Splits ⟨c :: left, k, right⟩ (c :: cs)) : Splits ⟨left, k, right⟩ cs where
  text_eq := h.cons_eq.2
  left_plain d hd := h.left_plain d (List.mem_cons_of_mem c hd)
  no_bang hk hlast := by
    refine h.no_bang hk ?_
    cases left with
    | nil => cases hlast
    | cons d ds => rw [List.getLast?_cons_cons]; exact hlast
  no_equals := h.no_equals

/-- A character at which no comparison starts goes to the left side. -/
theorem Splits.cons {c : Char} {cs : List Char} {s : Sides} (h : s.Splits cs)
    (hlong : Text.byteLength s.left + 1 < Text.byteLength cs)
    (hat : Comparison.at? (c :: cs) = none) :
    Splits { s with left := c :: s.left } (c :: cs) where
  text_eq := by rw [h.text_eq]; rfl
  left_plain d hd := by
    rcases List.mem_cons.mp hd with rfl | hd
    · have hlonger : 1 < Text.byteLength (d :: cs) := by
        rw [Text.byteLength_cons]
        omega
      have hnot : ¬(d = '=' ∨ d = '<' ∨ d = '>') := by
        intro hd
        have hsome := Comparison.isSome_at?_of_plain hd hlonger
        rw [hat] at hsome
        cases hsome
      simpa only [not_or] using hnot
    · exact h.left_plain d hd
  no_bang hk hlast := by
    rcases hleft : s.left with _ | ⟨d, ds⟩
    · rw [hleft] at hlast
      cases hlast
      have hcs : cs = '=' :: s.right := by
        rw [h.text_eq, hleft, hk]
        rfl
      rw [hcs] at hat
      cases hat
    · refine h.no_bang hk ?_
      rw [hleft] at hlast ⊢
      rw [List.getLast?_cons_cons] at hlast
      exact hlast
  no_equals := h.no_equals

/-- The scan finds the split of a text whose comparison starts before the last byte. -/
theorem ofText?_eq_some_iff {text : List Char} {s : Sides} :
    ofText? text = some s ↔ s.Splits text ∧ Text.byteLength s.left + 1 < Text.byteLength text := by
  induction text generalizing s with
  | nil =>
    constructor
    · intro h
      cases h
    · rintro ⟨-, hlong⟩
      rw [Text.byteLength_nil] at hlong
      omega
  | cons c cs ih =>
    obtain ⟨left, k, right⟩ := s
    rcases hat : Comparison.at? (c :: cs) with _ | k'
    · rw [ofText?_cons_of_none hat, Option.map_eq_some_iff]
      constructor
      · rintro ⟨s, hs, heq⟩
        obtain ⟨hsplit, hlong⟩ := ih.mp hs
        cases heq
        refine ⟨hsplit.cons hlong hat, ?_⟩
        simp only [Text.byteLength_cons]
        omega
      · rintro ⟨hsplit, hlong⟩
        cases left with
        | nil =>
          have htext : c :: cs = k.symbol.toList ++ right := hsplit.text_eq
          have hk := Comparison.at?_eq_some_iff.mpr
            ⟨by simpa using hlong, right, htext, hsplit.no_equals⟩
          rw [hat] at hk
          cases hk
        | cons d ds =>
          obtain rfl : c = d := hsplit.cons_eq.1
          refine ⟨⟨ds, k, right⟩, ih.mpr ⟨hsplit.tail, ?_⟩, rfl⟩
          simp only [Text.byteLength_cons] at hlong
          show Text.byteLength ds + 1 < _
          omega
    · obtain ⟨hlong, rest, htext, hrest⟩ := Comparison.at?_eq_some_iff.mp hat
      have hfound : ofText? (c :: cs) = some ⟨[], k', rest⟩ := by
        rw [ofText?_cons_of_some hat, htext, ← String.length_toList, List.drop_left]
      rw [hfound, Option.some.injEq, htext]
      constructor
      · intro heq
        cases heq
        rw [htext] at hlong
        exact ⟨splits_nil hrest, by simpa using hlong⟩
      · rintro ⟨hsplit, -⟩
        rw [← htext] at hsplit
        cases left with
        | nil =>
          have hk := Comparison.at?_eq_some_iff.mpr
            ⟨hlong, right, hsplit.text_eq, hsplit.no_equals⟩
          rw [hat] at hk
          cases hk
          have hright : k.symbol.toList ++ rest = k.symbol.toList ++ right :=
            htext.symm.trans hsplit.text_eq
          rw [List.append_cancel_left hright]
        | cons d ds =>
          obtain rfl : c = d := hsplit.cons_eq.1
          rw [hsplit.at?_eq_none] at hat
          cases hat

/-- A split does not end because the text does. -/
theorem Splits.extend {s : Sides} {text : List Char} (h : s.Splits text) {c : Char} (hc : c ≠ '=') :
    Splits { s with right := s.right ++ [c] } (text ++ [c]) where
  text_eq := by rw [h.text_eq, List.append_assoc]
  left_plain := h.left_plain
  no_bang := h.no_bang
  no_equals hk hhead := by
    cases hright : s.right with
    | nil =>
      rw [hright] at hhead
      exact hc (Option.some.inj hhead)
    | cons d ds =>
      refine h.no_equals hk ?_
      rw [hright] at hhead ⊢
      exact hhead

theorem Splits.length_left {s : Sides} {text : List Char} (h : s.Splits text) :
    Text.byteLength s.left + 1 + Text.byteLength s.right ≤ Text.byteLength text := by
  obtain ⟨c, cs, hsymbol, -⟩ := s.comparison.exists_symbol
  have hc := c.utf8Size_pos
  rw [h.text_eq, hsymbol]
  simp only [Text.byteLength_append, Text.byteLength_cons]
  omega

/-- A text has one split. A comparison at its end is no exception: the scan would find it if the
text went on. -/
theorem Splits.unique {s s' : Sides} {text : List Char} (h : s.Splits text) (h' : s'.Splits text) :
    s = s' := by
  have hfound : ∀ {s : Sides}, s.Splits text →
      ofText? (text ++ [' ']) = some { s with right := s.right ++ [' '] } := by
    intro s h
    have hlength := h.length_left
    refine ofText?_eq_some_iff.mpr ⟨h.extend (by decide), ?_⟩
    rw [Text.byteLength_append]
    show Text.byteLength s.left + 1 < Text.byteLength text + 1
    omega
  have hsame := (hfound h).symm.trans (hfound h')
  rw [Option.some.injEq, mk.injEq] at hsame
  obtain ⟨hleft, hcomparison, hright⟩ := hsame
  obtain ⟨left, k, right⟩ := s
  obtain ⟨left', k', right'⟩ := s'
  rw [mk.injEq]
  exact ⟨hleft, hcomparison, List.append_cancel_right hright⟩

/-- The scan finds a comparison exactly if one starts before the last byte. -/
theorem isSome_ofText?_iff {text : List Char} :
    (ofText? text).isSome = true ↔ HasComparison text := by
  constructor
  · intro h
    obtain ⟨s, hs⟩ := Option.isSome_iff_exists.mp h
    obtain ⟨hsplit, hlong⟩ := ofText?_eq_some_iff.mp hs
    exact ⟨s.left, s.right, s.comparison, hsplit.text_eq, hlong⟩
  · induction text with
    | nil =>
      rintro ⟨front, rest, k, -, hlong⟩
      rw [Text.byteLength_nil] at hlong
      omega
    | cons c cs ih =>
      rintro ⟨front, rest, k, htext, hlong⟩
      rcases hat : Comparison.at? (c :: cs) with _ | k'
      · cases front with
        | nil =>
          rw [htext] at hlong hat
          have hsome : (Comparison.at? (k.symbol.toList ++ rest)).isSome = true :=
            k.isSome_at? (by simpa using hlong)
          rw [List.nil_append] at hat
          rw [hat] at hsome
          cases hsome
        | cons d ds =>
          rw [List.cons_append, List.cons_append, List.cons.injEq] at htext
          obtain ⟨rfl, hcs⟩ := htext
          simp only [Text.byteLength_cons] at hlong
          have hrest : (ofText? cs).isSome = true := ih ⟨ds, rest, k, hcs, by omega⟩
          rw [ofText?_cons_of_none hat, Option.isSome_map]
          exact hrest
      · rw [ofText?_cons_of_some hat]
        rfl

end Sides

/-! ## Relations of a text -/

theorem compile_nil (V : Vocabulary) : Expression.compile V [] = .error (.unfinished 0) := by
  unfold Expression.compile
  rw [Scan.run_blank rfl]
  rfl

theorem ofText?_eq (V : Vocabulary) (text : String) :
    ofText? V text = (build V text.toList).map fun (k, program) => ⟨text, some k, program⟩ := by
  unfold ofText? compile
  rw [show (ofText text).text.toList = text.toList from rfl]
  cases build V text.toList <;> rfl

/-- An expression behind a comparison is not empty, so the comparison starts early enough. -/
theorem Sides.Splits.ofText?_eq {s : Sides} {text : List Char} (h : s.Splits text)
    {V : Vocabulary} {q : Program} (hright : Expression.compile V s.right = .ok q) :
    Sides.ofText? text = some s := by
  refine Sides.ofText?_eq_some_iff.mpr ⟨h, ?_⟩
  have hlength := h.length_left
  have hne : s.right ≠ [] := by
    intro hnil
    rw [hnil, compile_nil] at hright
    cases hright
  have hpos := Comparison.byteLength_pos hne
  omega

/-- A text is a relation exactly if both sides of its split are expressions. -/
theorem build_eq_ok_iff {V : Vocabulary} {text : List Char} {k : Comparison} {program : Program} :
    build V text = .ok (k, program) ↔ ∃ (s : Sides) (p q : Program), s.Splits text ∧
      s.comparison = k ∧ Expression.compile V s.left = .ok p ∧
      Expression.compile V s.right = .ok q ∧ program = (p ++ q).push (.apply V.subtraction) := by
  constructor
  · intro h
    unfold build at h
    split at h
    · cases h
    rename_i s hs
    rcases hleft : Expression.compile V s.left with e | p
    · rw [hleft] at h; cases h
    rcases hright : Expression.compile V s.right with e | q
    · rw [hleft, hright] at h; cases h
    rw [hleft, hright] at h
    cases h
    exact ⟨s, p, q, (Sides.ofText?_eq_some_iff.mp hs).1, rfl, hleft, hright, rfl⟩
  · rintro ⟨s, p, q, hsplit, rfl, hleft, hright, rfl⟩
    unfold build
    rw [hsplit.ofText?_eq hright]
    dsimp only
    rw [hleft, hright]
    rfl

theorem build_of_no_comparison {V : Vocabulary} {text : List Char} (h : ¬HasComparison text) :
    build V text = .error (.noComparison (Text.byteLength text)) := by
  rw [← Sides.isSome_ofText?_iff, Option.not_isSome_iff_eq_none] at h
  unfold build
  rw [h]

theorem build_of_left_error {V : Vocabulary} {text : List Char} {s : Sides}
    (hs : Sides.ofText? text = some s) {e : SyntaxError}
    (hleft : Expression.compile V s.left = .error e) : build V text = .error (.left e) := by
  unfold build
  rw [hs]
  dsimp only
  rw [hleft]
  rfl

theorem build_of_right_error {V : Vocabulary} {text : List Char} {s : Sides}
    (hs : Sides.ofText? text = some s) {p : Program} {e : SyntaxError}
    (hleft : Expression.compile V s.left = .ok p)
    (hright : Expression.compile V s.right = .error e) :
    build V text =
      .error (.right (e.shift (Text.byteLength (s.left ++ s.comparison.symbol.toList)))) := by
  unfold build
  rw [hs, Text.byteLength_append]
  dsimp only
  rw [hleft, hright]
  rfl

theorem ofText?_of_build_error {V : Vocabulary} {text : String} {e : Error}
    (h : build V text.toList = .error e) : ofText? V text = .error e := by
  rw [ofText?_eq, h]
  rfl

theorem ofText?_eq_ok_iff {V : Vocabulary} {text : String} {r : Relation} :
    ofText? V text = .ok r ↔ ∃ (s : Sides) (p q : Program), s.Splits text.toList ∧
      Expression.compile V s.left = .ok p ∧ Expression.compile V s.right = .ok q ∧
      r = ⟨text, some s.comparison, (p ++ q).push (.apply V.subtraction)⟩ := by
  rw [ofText?_eq]
  constructor
  · intro h
    rcases hbuild : build V text.toList with e | ⟨k, program⟩
    · rw [hbuild] at h; cases h
    rw [hbuild] at h
    cases h
    obtain ⟨s, p, q, hsplit, rfl, hleft, hright, rfl⟩ := build_eq_ok_iff.mp hbuild
    exact ⟨s, p, q, hsplit, hleft, hright, rfl⟩
  · rintro ⟨s, p, q, hsplit, hleft, hright, rfl⟩
    rw [build_eq_ok_iff.mpr ⟨s, p, q, hsplit, rfl, hleft, hright, rfl⟩]
    rfl

/-- A text with a comparison has a split, and what is wrong with it is what is wrong with its left
side, or else with its right side. -/
theorem ofText?_of_error {V : Vocabulary} {text : String} (h : HasComparison text.toList) :
    ∃ s : Sides, s.Splits text.toList ∧
      (∀ e, Expression.compile V s.left = .error e → ofText? V text = .error (.left e)) ∧
      ∀ p e, Expression.compile V s.left = .ok p → Expression.compile V s.right = .error e →
        ofText? V text = .error
          (.right (e.shift (Text.byteLength (s.left ++ s.comparison.symbol.toList)))) := by
  obtain ⟨s, hs⟩ := Option.isSome_iff_exists.mp (Sides.isSome_ofText?_iff.mpr h)
  refine ⟨s, (Sides.ofText?_eq_some_iff.mp hs).1, fun e hleft => ?_, fun p e hleft hright => ?_⟩
  · exact ofText?_of_build_error (build_of_left_error hs hleft)
  · exact ofText?_of_build_error (build_of_right_error hs hleft hright)

/-! ## Values of relations -/

/-- In a reachable vocabulary every infix operator takes two operands, so the one that is written
`-` joins the sides of a relation. -/
theorem subtraction_eq {V : Vocabulary} (hV : V.OperatorsSuit) :
    V.subtraction = (V.infixes.get? ['-']).getD Operator.subtraction := by
  unfold Vocabulary.subtraction
  cases hget : V.infixes.get? ['-'] with
  | none => rfl
  | some op =>
    have hsuits : op.Suits .infixed := hV .infixed _ (Trie.get?_mem_entries hget)
    have harity : (op.arity == 2) = true := beq_iff_eq.mpr hsuits.2
    rw [Option.filter_some, if_pos harity]

/-- The program of a relation has the value of the subtraction at the values of its sides. -/
theorem value_of_sides {V : Vocabulary} (hV : V.OperatorsSuit) {left right : List Char}
    {p q : Program} (hleft : Expression.compile V left = .ok p)
    (hright : Expression.compile V right = .ok q) (σ : Store) :
    ∃ x y, p.value σ = .ok x ∧ q.value σ = .ok y ∧
      ((p ++ q).push (.apply V.subtraction)).value σ = .ok (V.subtraction.apply [x, y]) := by
  obtain ⟨x, hx⟩ := (Program.exists_value_iff σ p).mpr (heightAfter?_of_compile hV hleft)
  obtain ⟨y, hy⟩ := (Program.exists_value_iff σ q).mpr (heightAfter?_of_compile hV hright)
  exact ⟨x, y, hx, hy, Program.value_binary hx hy V.arity_subtraction⟩

/-- What a text says as a relation. It is a relation with some comparison exactly if it is split
around it into two expressions. There is at most one split; the program is that of the left side,
that of the right side and the subtraction of the vocabulary, and its value is that operator's at
the values of the two sides. A text without a comparison before its last byte is refused at its
end. Otherwise it is split, and an error is that of the left side, or else that of the right side,
counted from the start of the whole text. -/
theorem ofText?_reads_split {V : Vocabulary} (hV : V.Reachable) (text : String) :
    let minus := (V.infixes.get? ['-']).getD Operator.subtraction
    (∀ k, (∃ r, ofText? V text = .ok r ∧ r.comparison? = some k) ↔
      ∃ s : Sides, s.Splits text.toList ∧ s.comparison = k ∧
        (∃ p, Expression.compile V s.left = .ok p) ∧ ∃ q, Expression.compile V s.right = .ok q) ∧
    (∀ s s' : Sides, s.Splits text.toList → s'.Splits text.toList → s = s') ∧
    (∀ (s : Sides) (p q : Program), s.Splits text.toList →
      Expression.compile V s.left = .ok p → Expression.compile V s.right = .ok q →
        ofText? V text = .ok ⟨text, some s.comparison, (p ++ q).push (.apply minus)⟩ ∧
        ∀ σ, ∃ x y, p.value σ = .ok x ∧ q.value σ = .ok y ∧
          ((p ++ q).push (.apply minus)).value σ = .ok (minus.apply [x, y])) ∧
    (¬HasComparison text.toList →
      ofText? V text = .error (.noComparison (Text.byteLength text.toList))) ∧
    (HasComparison text.toList → ∃ s : Sides, s.Splits text.toList ∧
      (∀ e, Expression.compile V s.left = .error e → ofText? V text = .error (.left e)) ∧
      ∀ p e, Expression.compile V s.left = .ok p → Expression.compile V s.right = .error e →
        ofText? V text = .error
          (.right (e.shift (Text.byteLength (s.left ++ s.comparison.symbol.toList))))) := by
  intro minus
  have hsuit := hV.operators_suit
  have hminus : V.subtraction = minus := subtraction_eq hsuit
  refine ⟨fun k => ⟨?_, ?_⟩, fun s s' h h' => h.unique h', ?_, fun h => ?_, ofText?_of_error⟩
  · rintro ⟨r, hr, hk⟩
    obtain ⟨s, p, q, hsplit, hleft, hright, rfl⟩ := ofText?_eq_ok_iff.mp hr
    exact ⟨s, hsplit, Option.some.inj hk, ⟨p, hleft⟩, q, hright⟩
  · rintro ⟨s, hsplit, rfl, ⟨p, hleft⟩, q, hright⟩
    exact ⟨_, ofText?_eq_ok_iff.mpr ⟨s, p, q, hsplit, hleft, hright, rfl⟩, rfl⟩
  · intro s p q hsplit hleft hright
    rw [← hminus]
    exact ⟨ofText?_eq_ok_iff.mpr ⟨s, p, q, hsplit, hleft, hright, rfl⟩,
      value_of_sides hsuit hleft hright⟩
  · exact ofText?_of_build_error (build_of_no_comparison h)

/-- Where `!` is a suffix as well, the `!` of a `!=` still belongs to the comparison. -/
theorem ofText?_reads_split_not_equal :
    ∃ (V : Vocabulary) (x : Variable) (bang : Operator), V.Reachable ∧
      V.suffixes.get? ['!'] = some bang ∧
      ofText? V "x!=x" =
        .ok ⟨"x!=x", some .notEqual, ⟨[.load x, .load x, .apply Operator.subtraction]⟩⟩ ∧
      ∀ σ, ∃ a b, Program.value σ ⟨[.load x]⟩ = .ok a ∧ Program.value σ ⟨[.load x]⟩ = .ok b ∧
        Program.value σ ⟨[.load x, .load x, .apply Operator.subtraction]⟩ =
          .ok (Operator.subtraction.apply [a, b]) := by
  let x : Variable := ⟨"x", .free, 0⟩
  let bang : Operator := .suffixed "!" fun _ => 0.0
  let Vx : Vocabulary := { Vocabulary.empty with vars := ⟨.node 'x' (some x) .nil .nil, 1⟩ }
  let V : Vocabulary := { Vx with suffixes := ⟨.node '!' (some bang) .nil .nil, 1⟩ }
  have haddx : Vocabulary.empty.addVariable .empty "x" .free 0.0 =
      .ok (x, Vx, Store.empty.push 0.0) := rfl
  have haddBang : Vx.addOperator bang = .ok V := by
    have hname : Vocabulary.enter .suffixes .empty "!" bang =
        .ok ⟨.node '!' (some bang) .nil .nil, 1⟩ := rfl
    unfold Vocabulary.addOperator
    exact congrArg (· >>= fun ops => pure (Vx.withOperators .suffixed ops)) hname
  have hV : V.Reachable := (Vocabulary.Reachable.empty.addVariable haddx).addSuffix haddBang
  have hx : Expression.compile V ['x'] = .ok ⟨[.load x]⟩ := by
    have hrun : Scan.start.run V 0 ['x'] = .ok ⟨[.load x], [], false⟩ := by
      rw [Scan.run_step (show Text.dropBlanks ['x'] = 'x' :: [] from rfl)]
      exact Scan.run_blank rfl _ _
    unfold Expression.compile
    rw [hrun]
    rfl
  have hsplit : Sides.Splits ⟨['x'], .notEqual, ['x']⟩ "x!=x".toList :=
    { text_eq := rfl
      left_plain := fun c hc => List.mem_singleton.mp hc ▸ by decide
      no_bang := fun h => by cases h
      no_equals := fun h => by rcases h with h | h <;> cases h }
  obtain ⟨-, -, hprogram, -⟩ := ofText?_reads_split hV "x!=x"
  obtain ⟨hr, hvalue⟩ := hprogram _ _ _ hsplit hx hx
  exact ⟨V, x, bang, hV, rfl, hr, hvalue⟩

end ImplicitPlot.Relation

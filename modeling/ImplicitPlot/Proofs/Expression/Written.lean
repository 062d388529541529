import ImplicitPlot.Expression.Token
import ImplicitPlot.Proofs.Symbols.Spelling
import Mathlib.Data.List.TakeWhile

/-
  Tokens as they are written. The characters of a token are a parenthesis, a comma, a numeral or a
  name of the table it is looked up in, and a call ends with its parenthesis
  (`operandToken?_writes`, `operatorToken?_writes`).

  Names hold no separators, so the token in front of one is the same whatever comes behind it. The
  exception is an open parenthesis, which makes a call of a function name
  (`operandToken?_append`, `operatorToken?_append`).
-/
namespace ImplicitPlot.Expression

open Symbols

/-! ## Numerals -/

/-- Digits, with a point behind them and then any number of digits, or without. -/
inductive IsNumeral : List Char → Prop where
  | whole {ds : List Char} (hne : ds ≠ []) (hds : ∀ c ∈ ds, c.isDigit = true) : IsNumeral ds
  | pointed {ds es : List Char} (hne : ds ≠ []) (hds : ∀ c ∈ ds, c.isDigit = true)
      (hes : ∀ c ∈ es, c.isDigit = true) : IsNumeral (ds ++ '.' :: es)

theorem numeral_prefix (cs : List Char) : numeral cs <+: cs := by
  have hcs : cs.takeWhile Char.isDigit ++ cs.drop (cs.takeWhile Char.isDigit).length = cs := by
    rw [List.prefix_iff_eq_append.mp (List.takeWhile_prefix Char.isDigit)]
  unfold numeral
  dsimp only
  split
  · rename_i rest hrest
    refine ⟨rest.dropWhile Char.isDigit, ?_⟩
    rw [List.append_assoc, List.cons_append, List.takeWhile_append_dropWhile, ← hrest, hcs]
  · exact List.takeWhile_prefix Char.isDigit

theorem isNumeral_numeral {c : Char} (cs : List Char) (hc : c.isDigit = true) :
    IsNumeral (numeral (c :: cs)) := by
  have hne : (c :: cs).takeWhile Char.isDigit ≠ [] := by
    rw [List.takeWhile_cons, if_pos hc]
    exact List.cons_ne_nil _ _
  have hdigits : ∀ (as : List Char), ∀ d ∈ as.takeWhile Char.isDigit, d.isDigit = true :=
    fun as d hd => List.mem_takeWhile_imp hd
  unfold numeral
  dsimp only
  split
  · exact .pointed hne (hdigits _) (hdigits _)
  · exact .whole hne (hdigits _)

theorem IsNumeral.not_mem {text : List Char} (h : IsNumeral text) {d : Char}
    (hd : isSeparator d = true) : d ∉ text := by
  have hdigit : ∀ {ds : List Char}, (∀ c ∈ ds, c.isDigit = true) → d ∉ ds := by
    intro ds hds hmem
    have hyes := hds d hmem
    rw [isDigit_of_isSeparator hd] at hyes
    cases hyes
  cases h with
  | whole _ hds => exact hdigit hds
  | pointed _ hds hes =>
    intro hmem
    rcases List.mem_append.mp hmem with hmem | hmem
    · exact hdigit hds hmem
    · rcases List.mem_cons.mp hmem with heq | hmem
      · exact ne_point_of_isSeparator hd heq
      · exact hdigit hes hmem

theorem IsNumeral.head {c : Char} {cs : List Char} (h : IsNumeral (c :: cs)) :
    c.isDigit = true := by
  generalize htext : c :: cs = text at h
  cases h with
  | whole _ hds => exact hds c (htext ▸ List.mem_cons_self)
  | @pointed ds es hne hds _ =>
    obtain ⟨d, ds, rfl⟩ := List.exists_cons_of_ne_nil hne
    rw [(List.cons.inj htext).1]
    exact hds d List.mem_cons_self

theorem takeWhile_isDigit_append {d : Char} (hd : d.isDigit = false) (cs rest : List Char) :
    (cs ++ d :: rest).takeWhile Char.isDigit = cs.takeWhile Char.isDigit := by
  rw [List.takeWhile_append, List.takeWhile_cons, hd]
  split
  · rename_i hall
    rw [if_neg Bool.false_ne_true, List.append_nil,
      (List.takeWhile_prefix Char.isDigit).eq_of_length hall]
  · rfl

/-- A numeral ends at a character that is no digit and no point. -/
theorem numeral_append {d : Char} (hd : d.isDigit = false) (hpoint : d ≠ '.')
    (cs rest : List Char) : numeral (cs ++ d :: rest) = numeral cs := by
  have hle : (cs.takeWhile Char.isDigit).length ≤ cs.length :=
    (List.takeWhile_prefix Char.isDigit).length_le
  unfold numeral
  dsimp only
  rw [takeWhile_isDigit_append hd, List.drop_append_of_le_length hle]
  rcases cs.drop (cs.takeWhile Char.isDigit).length with _ | ⟨e, es⟩
  · rw [List.nil_append]
    split
    · rename_i heq
      exact absurd (List.cons.inj heq).1 hpoint
    · rfl
  · rw [List.cons_append]
    by_cases he : e = '.'
    · subst he
      show cs.takeWhile Char.isDigit ++ '.' :: (es ++ d :: rest).takeWhile Char.isDigit = _
      rw [takeWhile_isDigit_append hd]
      rfl
    · split
      · rename_i heq
        exact absurd (List.cons.inj heq).1 he
      · split
        · rename_i heq
          exact absurd (List.cons.inj heq).1 he
        · rfl

/-! ## The characters of a token -/

/-- How a token is written where an operand is needed. -/
inductive OperandToken.Writes (V : Vocabulary) : OperandToken → List Char → Prop where
  | openGroup : Writes V .openGroup ['(']
  | number {text : List Char} (h : IsNumeral text) : Writes V (.number text) text
  | prefixed {op : Operator} {name : List Char} (h : V.prefixes.get? name = some op) :
      Writes V (.prefixed op) name
  | call {f : Operator} {name : List Char} (h : V.functions.get? name = some f) :
      Writes V (.call f) (name ++ ['('])
  | «variable» {v : Variable} {name : List Char} (h : V.vars.get? name = some v) :
      Writes V (.variable v) name

/-- How a token is written behind an operand. -/
inductive OperatorToken.Writes (V : Vocabulary) : OperatorToken → List Char → Prop where
  | closeGroup : Writes V .closeGroup [')']
  | comma : Writes V .comma [',']
  | infixed {op : Operator} {name : List Char} (h : V.infixes.get? name = some op) :
      Writes V (.infixed op) name
  | suffixed {op : Operator} {name : List Char} (h : V.suffixes.get? name = some op) :
      Writes V (.suffixed op) name

theorem call?_eq_some {V : Vocabulary} {cs : List Char} {token : OperandToken} {n : Nat}
    (h : call? V cs = some (token, n)) :
    ∃ k f, V.functions.longest? cs = some (k, f) ∧ cs[k]? = some '(' ∧ token = .call f ∧
      n = k + 1 := by
  unfold call? at h
  split at h
  · rename_i k f hlongest
    split at h
    · rename_i hopen
      cases h
      exact ⟨k, f, hlongest, hopen, rfl, rfl⟩
    · cases h
  · cases h

theorem operandToken?_writes {V : Vocabulary} {cs : List Char} {token : OperandToken} {n : Nat}
    (h : operandToken? V cs = some (token, n)) : n ≤ cs.length ∧ token.Writes V (cs.take n) := by
  rcases cs with _ | ⟨c, cs⟩
  · cases h
  rw [operandToken?] at h
  split at h
  · rename_i hc
    cases h
    exact ⟨Nat.le_add_left _ _, hc ▸ .openGroup⟩
  split at h
  · rename_i hdigit
    cases h
    have hfront := numeral_prefix (c :: cs)
    rw [← List.prefix_iff_eq_take.mp hfront]
    exact ⟨hfront.length_le, .number (isNumeral_numeral cs hdigit)⟩
  rcases hbefore : V.prefixes.longest? (c :: cs) with _ | ⟨k, op⟩
  · rcases hcall : call? V (c :: cs) with _ | ⟨u, k⟩
    · rcases hvar : V.vars.longest? (c :: cs) with _ | ⟨k, v⟩
      · rw [hbefore, hcall, hvar] at h
        cases h
      · rw [hbefore, hcall, hvar] at h
        cases h
        obtain ⟨hle, hname⟩ := Trie.longest?_eq_some hvar
        exact ⟨hle, .variable hname⟩
    · rw [hbefore, hcall] at h
      cases h
      obtain ⟨k, f, hlongest, hopen, rfl, rfl⟩ := call?_eq_some hcall
      obtain ⟨hlt, hget⟩ := List.getElem?_eq_some_iff.mp hopen
      rw [List.take_add_one, hopen]
      exact ⟨hlt, .call (Trie.longest?_eq_some hlongest).2⟩
  · rw [hbefore] at h
    cases h
    obtain ⟨hle, hname⟩ := Trie.longest?_eq_some hbefore
    exact ⟨hle, .prefixed hname⟩

theorem operatorToken?_writes {V : Vocabulary} {cs : List Char} {token : OperatorToken} {n : Nat}
    (h : operatorToken? V cs = some (token, n)) : n ≤ cs.length ∧ token.Writes V (cs.take n) := by
  rcases cs with _ | ⟨c, cs⟩
  · cases h
  rw [operatorToken?] at h
  split at h
  · rename_i hc
    cases h
    exact ⟨Nat.le_add_left _ _, hc ▸ .closeGroup⟩
  split at h
  · rename_i hc
    cases h
    exact ⟨Nat.le_add_left _ _, hc ▸ .comma⟩
  rcases hbetween : V.infixes.longest? (c :: cs) with _ | ⟨k, op⟩
  · rcases hbehind : V.suffixes.longest? (c :: cs) with _ | ⟨k, op⟩
    · rw [hbetween, hbehind] at h
      cases h
    · rw [hbetween, hbehind] at h
      cases h
      obtain ⟨hle, hname⟩ := Trie.longest?_eq_some hbehind
      exact ⟨hle, .suffixed hname⟩
  · rw [hbetween] at h
    cases h
    obtain ⟨hle, hname⟩ := Trie.longest?_eq_some hbetween
    exact ⟨hle, .infixed hname⟩

/-! ## Tokens in front of a separator -/

section Separator

variable {V : Vocabulary} (hV : V.Spelled) {d : Char} (hd : isSeparator d = true)

include hV hd

theorem call?_append (hopen : d ≠ '(') (cs rest : List Char) :
    call? V (cs ++ d :: rest) = call? V cs := by
  unfold call?
  rw [show V.functions.longest? (cs ++ d :: rest) = V.functions.longest? cs from
    hV.longest?_operators .called hd cs rest]
  rcases hlongest : V.functions.longest? cs with _ | ⟨n, f⟩
  · rfl
  dsimp only
  rcases Nat.eq_or_lt_of_le (Trie.longest?_eq_some hlongest).1 with rfl | hlt
  · rw [List.getElem?_append_right (Nat.le_refl _), Nat.sub_self, List.getElem?_cons_zero,
      if_neg (fun heq => hopen (Option.some.inj heq)), if_neg (by simp)]
  · rw [List.getElem?_append_left hlt]

theorem operandToken?_append (hopen : d ≠ '(') (c : Char) (cs rest : List Char) :
    operandToken? V (c :: (cs ++ d :: rest)) = operandToken? V (c :: cs) := by
  have hprefixes : V.prefixes.longest? (c :: cs ++ d :: rest) = V.prefixes.longest? (c :: cs) :=
    hV.longest?_operators .prefixed hd (c :: cs) rest
  have hcalls := call?_append hV hd hopen (c :: cs) rest
  have hvars := hV.longest?_vars hd (c :: cs) rest
  have hnumeral := numeral_append (isDigit_of_isSeparator hd) (ne_point_of_isSeparator hd)
    (c :: cs) rest
  simp only [List.cons_append] at hprefixes hcalls hvars hnumeral
  simp only [operandToken?, hprefixes, hcalls, hvars, hnumeral]

theorem operatorToken?_append (c : Char) (cs rest : List Char) :
    operatorToken? V (c :: (cs ++ d :: rest)) = operatorToken? V (c :: cs) := by
  have hinfixes : V.infixes.longest? (c :: cs ++ d :: rest) = V.infixes.longest? (c :: cs) :=
    hV.longest?_operators .infixed hd (c :: cs) rest
  have hsuffixes : V.suffixes.longest? (c :: cs ++ d :: rest) = V.suffixes.longest? (c :: cs) :=
    hV.longest?_operators .suffixed hd (c :: cs) rest
  simp only [List.cons_append] at hinfixes hsuffixes
  simp only [operatorToken?, hinfixes, hsuffixes]

theorem operatorToken?_infixed {name : List Char} {op : Operator}
    (h : V.infixes.get? name = some op) (rest : List Char) :
    operatorToken? V (name ++ d :: rest) = some (.infixed op, name.length) := by
  have hspells : Table.infixes.Spells name := hV.operators .infixed h
  have hlongest : V.infixes.longest? name = some (name.length, op) := Trie.longest?_name h
  obtain ⟨c, cs, rfl⟩ := List.exists_cons_of_ne_nil hspells.ne_nil
  obtain ⟨-, -, hclose, hcomma⟩ := hspells.no_separator c List.mem_cons_self
  rw [List.cons_append, operatorToken?_append hV hd, operatorToken?, if_neg hclose, if_neg hcomma,
    hlongest]
  rfl

end Separator

/-! ## Tokens of known names -/

section Names

variable {V : Vocabulary} {name : List Char} {op : Operator}

theorem operandToken?_prefixed (hV : V.Spelled) (h : V.prefixes.get? name = some op)
    (hdigit : ∀ c cs, name = c :: cs → c.isDigit = false) (rest : List Char) :
    operandToken? V (name ++ '(' :: rest) = some (.prefixed op, name.length) := by
  have hspells : Table.prefixes.Spells name := hV.operators .prefixed h
  have hlongest : V.prefixes.longest? (name ++ '(' :: rest) = some (name.length, op) :=
    (hV.longest?_operators .prefixed rfl name rest).trans (Trie.longest?_name h)
  obtain ⟨c, cs, rfl⟩ := List.exists_cons_of_ne_nil hspells.ne_nil
  obtain ⟨-, hopen, -⟩ := hspells.no_separator c List.mem_cons_self
  rw [List.cons_append] at hlongest ⊢
  rw [operandToken?, if_neg hopen, hdigit c cs rfl, if_neg Bool.false_ne_true, hlongest]
  rfl

/-- In front of a parenthesis a function name is a call, unless it starts with a prefix operator. -/
theorem operandToken?_call (hV : V.Spelled) (h : V.functions.get? name = some op)
    (hfree : ∀ front, front <+: name → V.prefixes.get? front = none) (rest : List Char) :
    operandToken? V (name ++ '(' :: rest) = some (.call op, name.length + 1) := by
  have hspells : Table.functions.Spells name := hV.operators .called h
  have hlongest : V.functions.longest? (name ++ '(' :: rest) = some (name.length, op) :=
    (hV.longest?_operators .called rfl name rest).trans (Trie.longest?_name h)
  have hnone : V.prefixes.longest? (name ++ '(' :: rest) = none :=
    (hV.longest?_operators .prefixed rfl name rest).trans (Trie.longest?_eq_none hfree)
  have hcall : call? V (name ++ '(' :: rest) = some (.call op, name.length + 1) := by
    unfold call?
    rw [hlongest]
    dsimp only
    rw [List.getElem?_append_right (Nat.le_refl _), Nat.sub_self, List.getElem?_cons_zero,
      if_pos rfl]
  obtain ⟨c, cs, rfl⟩ := List.exists_cons_of_ne_nil hspells.ne_nil
  obtain ⟨-, hopen, -⟩ := hspells.no_separator c List.mem_cons_self
  have hdigit := (hspells.no_number (Or.inr rfl) c cs rfl).1
  rw [List.cons_append] at hnone hcall ⊢
  rw [operandToken?, if_neg hopen, hdigit, if_neg Bool.false_ne_true, hnone, hcall]
  rfl

/-- At the end of a text a suffix operator is one, unless it starts with an infix operator. -/
theorem operatorToken?_suffixed (hV : V.Spelled) (h : V.suffixes.get? name = some op)
    (hfree : ∀ front, front <+: name → V.infixes.get? front = none) :
    operatorToken? V name = some (.suffixed op, name.length) := by
  have hspells : Table.suffixes.Spells name := hV.operators .suffixed h
  have hlongest : V.suffixes.longest? name = some (name.length, op) := Trie.longest?_name h
  have hnone : V.infixes.longest? name = none := Trie.longest?_eq_none hfree
  obtain ⟨c, cs, rfl⟩ := List.exists_cons_of_ne_nil hspells.ne_nil
  obtain ⟨-, -, hclose, hcomma⟩ := hspells.no_separator c List.mem_cons_self
  rw [operatorToken?, if_neg hclose, if_neg hcomma, hnone, hlongest]
  rfl

end Names

end ImplicitPlot.Expression

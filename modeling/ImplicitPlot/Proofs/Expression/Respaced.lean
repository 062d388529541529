import ImplicitPlot.Proofs.Expression.Context

/-
  White space between tokens. `Respaced` relates the text of a scan to the texts with other white
  space where the scan starts a step and at the end: more of it, or some where there was none.
  All of them compile to the same program (`compile_respaced`).

  A token is looked up in the unbroken front of what is left to read, so white space behind it makes
  that front shorter but leaves the token inside. A front that holds the token has the same one
  (`operandToken?_front`, `operatorToken?_front`): the longest name is still the longest, and a name
  that is not called in the whole text is not called in a front. The offsets of open groups are all
  that differs between the two scans, and no instruction depends on them.
-/
namespace ImplicitPlot.Expression

open Symbols

/-! ## Tokens of fronts -/

theorem takeWhile_append_of_length_le {p : Char → Bool} {cs more : List Char}
    (h : ((cs ++ more).takeWhile p).length ≤ cs.length) :
    (cs ++ more).takeWhile p = cs.takeWhile p := by
  rw [List.takeWhile_append] at h ⊢
  split at h
  · rename_i hall
    rw [List.length_append] at h
    have hnil : more.takeWhile p = [] := List.length_eq_zero_iff.mp (by omega)
    rw [if_pos hall, hnil, List.append_nil]
    exact ((List.takeWhile_prefix p).eq_of_length hall).symm
  · rename_i hsome
    rw [if_neg hsome]

theorem takeWhile_length_le_numeral (cs : List Char) :
    (cs.takeWhile Char.isDigit).length ≤ (numeral cs).length := by
  unfold numeral
  dsimp only
  split
  · rw [List.length_append]
    exact Nat.le_add_right _ _
  · exact Nat.le_refl _

/-- A numeral is read from every front that holds it. -/
theorem numeral_front {cs more : List Char} (h : (numeral (cs ++ more)).length ≤ cs.length) :
    numeral cs = numeral (cs ++ more) := by
  have hwhole := takeWhile_append_of_length_le
    ((takeWhile_length_le_numeral (cs ++ more)).trans h)
  have hle : (cs.takeWhile Char.isDigit).length ≤ cs.length :=
    (List.takeWhile_prefix Char.isDigit).length_le
  have hcs := List.take_append_drop (cs.takeWhile Char.isDigit).length cs
  have hsum := congrArg List.length hcs
  rw [List.length_append, List.length_take, Nat.min_eq_left hle] at hsum
  unfold numeral at h ⊢
  dsimp only at h ⊢
  rw [hwhole, List.drop_append_of_le_length hle] at h ⊢
  rcases hrest : cs.drop (cs.takeWhile Char.isDigit).length with _ | ⟨e, es⟩ <;>
    rw [hrest] at h hsum
  · -- the front is all digits, so a point behind it would not be inside the front
    rw [List.nil_append] at h ⊢
    split at h
    · simp at h hsum
      omega
    · rfl
  · rw [List.cons_append] at h ⊢
    by_cases he : e = '.'
    · subst he
      show _ ++ '.' :: es.takeWhile Char.isDigit = _ ++ '.' :: (es ++ more).takeWhile Char.isDigit
      rw [takeWhile_append_of_length_le]
      change (_ ++ '.' :: (es ++ more).takeWhile Char.isDigit).length ≤ _ at h
      simp only [List.length_append, List.length_cons] at h hsum
      omega
    · split
      · rename_i heq
        exact absurd (List.cons.inj heq).1 he
      · split
        · rename_i heq
          exact absurd (List.cons.inj heq).1 he
        · rfl

section Front

variable {V : Vocabulary} {cs more : List Char}

/-- A function name in a front that is called there is called in the whole text: names hold no
parenthesis, so the longest one ends in front of it. -/
theorem call?_front_eq_none (hV : V.Spelled) (hcall : call? V (cs ++ more) = none) :
    call? V cs = none := by
  have hfront : cs <+: cs ++ more := List.prefix_append cs more
  rcases hcs : call? V cs with _ | ⟨u, m⟩
  · rfl
  obtain ⟨j, g, hj, hopen, rfl, rfl⟩ := call?_eq_some hcs
  obtain ⟨hlt, -⟩ := List.getElem?_eq_some_iff.mp hopen
  have hname := (Trie.longest?_eq_some hj).2
  have hnamed : cs.take j <+: cs ++ more := (List.take_prefix j cs).trans hfront
  have hopen' : (cs ++ more)[j]? = some '(' := by rw [List.getElem?_append_left hlt, hopen]
  rcases hlongest : V.functions.longest? (cs ++ more) with _ | ⟨k, f⟩
  · rw [Trie.get?_front_eq_none hlongest hnamed] at hname
    cases hname
  have hjk : j ≤ k := by
    have hle := Trie.longest?_le hlongest hnamed hname
    rwa [List.length_take, Nat.min_eq_left (Nat.le_of_lt hlt)] at hle
  rcases Nat.eq_or_lt_of_le hjk with rfl | hlt'
  · rw [call?, hlongest] at hcall
    dsimp only at hcall
    rw [if_pos hopen'] at hcall
    cases hcall
  · have hspells : Table.functions.Spells _ :=
      hV.operators .called (Trie.longest?_eq_some hlongest).2
    refine absurd ?_ (hspells.not_mem (d := '(') rfl)
    exact List.mem_of_getElem? (by rw [List.getElem?_take_of_lt hlt', hopen'])

/-- The operand at the front of a text is that of every front of the text that holds it. -/
theorem operandToken?_front (hV : V.Spelled) {token : OperandToken} {n : Nat}
    (h : operandToken? V (cs ++ more) = some (token, n)) (hn : n ≤ cs.length) :
    operandToken? V cs = some (token, n) := by
  have hfront : cs <+: cs ++ more := List.prefix_append cs more
  obtain ⟨c, cs, rfl⟩ := List.exists_cons_of_length_pos
    (Nat.lt_of_lt_of_le (operandToken?_pos h) hn)
  rw [List.cons_append] at h hfront
  rw [operandToken?] at h ⊢
  by_cases hopen : c = '('
  · rwa [if_pos hopen] at h ⊢
  rw [if_neg hopen] at h ⊢
  by_cases hdigit : c.isDigit = true
  · rw [if_pos hdigit] at h ⊢
    cases h
    rw [show numeral (c :: cs) = numeral (c :: cs ++ more) from numeral_front hn]
    rfl
  rw [if_neg hdigit] at h ⊢
  rcases hbefore : V.prefixes.longest? (c :: (cs ++ more)) with _ | ⟨k, op⟩ <;>
    rw [hbefore] at h
  · rw [Trie.longest?_eq_none fun _ hname =>
      Trie.get?_front_eq_none hbefore (hname.trans hfront)]
    rcases hcall : call? V (c :: (cs ++ more)) with _ | ⟨u, k⟩ <;> rw [hcall] at h
    · rw [show call? V (c :: cs) = none from call?_front_eq_none hV hcall]
      rcases hvar : V.vars.longest? (c :: (cs ++ more)) with _ | ⟨k, v⟩ <;> rw [hvar] at h
      · cases h
      · cases h
        rw [Trie.longest?_front hvar hfront hn]
        rfl
    · obtain ⟨k, f, hlongest, hopened, rfl, rfl⟩ := call?_eq_some hcall
      cases h
      have hcalled : call? V (c :: cs) = some (.call f, k + 1) := by
        rw [call?, Trie.longest?_front hlongest hfront (Nat.le_of_succ_le hn)]
        dsimp only
        rw [← List.cons_append, List.getElem?_append_left hn] at hopened
        rw [if_pos hopened]
      rw [hcalled]
      rfl
  · cases h
    rw [Trie.longest?_front hbefore hfront hn]
    rfl

/-- The operator at the front of a text is that of every front of the text that holds it. -/
theorem operatorToken?_front {token : OperatorToken} {n : Nat}
    (h : operatorToken? V (cs ++ more) = some (token, n)) (hn : n ≤ cs.length) :
    operatorToken? V cs = some (token, n) := by
  have hfront : cs <+: cs ++ more := List.prefix_append cs more
  obtain ⟨c, cs, rfl⟩ := List.exists_cons_of_length_pos
    (Nat.lt_of_lt_of_le (operatorToken?_pos h) hn)
  rw [List.cons_append] at h hfront
  rw [operatorToken?] at h ⊢
  by_cases hclose : c = ')'
  · rwa [if_pos hclose] at h ⊢
  rw [if_neg hclose] at h ⊢
  by_cases hcomma : c = ','
  · rwa [if_pos hcomma] at h ⊢
  rw [if_neg hcomma] at h ⊢
  rcases hbetween : V.infixes.longest? (c :: (cs ++ more)) with _ | ⟨k, op⟩ <;>
    rw [hbetween] at h
  · rw [Trie.longest?_eq_none fun _ hname =>
      Trie.get?_front_eq_none hbetween (hname.trans hfront)]
    rcases hbehind : V.suffixes.longest? (c :: (cs ++ more)) with _ | ⟨k, op⟩ <;>
      rw [hbehind] at h
    · cases h
    · cases h
      rw [Trie.longest?_front hbehind hfront hn]
      rfl
  · cases h
    rw [Trie.longest?_front hbetween hfront hn]
    rfl

end Front

/-! ## Unbroken fronts -/

/-- The front of a text up to its first white space. -/
def unbroken (cs : List Char) : List Char := cs.takeWhile fun c => !Text.isBlank c

theorem unbroken_prefix (cs : List Char) : unbroken cs <+: cs := List.takeWhile_prefix _

theorem unbroken_append {word : List Char} (hword : ∀ c ∈ word, Text.isBlank c = false)
    (rest : List Char) : unbroken (word ++ rest) = word ++ unbroken rest :=
  List.takeWhile_append_of_pos fun c hc => by rw [hword c hc]; rfl

theorem unbroken_cons {c : Char} (hc : Text.isBlank c = false) (cs : List Char) :
    unbroken (c :: cs) = c :: unbroken cs :=
  List.takeWhile_cons_of_pos (by rw [hc]; rfl)

theorem unbroken_blanks {bs : List Char} (hbs : ∀ b ∈ bs, Text.isBlank b = true) (hne : bs ≠ [])
    (rest : List Char) : unbroken (bs ++ rest) = [] := by
  obtain ⟨b, bs, rfl⟩ := List.exists_cons_of_ne_nil hne
  rw [unbroken, List.cons_append, List.takeWhile_cons, hbs b List.mem_cons_self]
  rfl

/-- Behind its unbroken front a text ends or goes on with a separator. -/
theorem unbroken_cases (cs : List Char) :
    cs = unbroken cs ∨
      ∃ d rest, cs = unbroken cs ++ d :: rest ∧ isSeparator d = true ∧ d ≠ '(' := by
  have hsplit := List.takeWhile_append_dropWhile (p := fun c => !Text.isBlank c) (l := cs)
  rcases hrest : cs.dropWhile fun c => !Text.isBlank c with _ | ⟨d, rest⟩ <;> rw [hrest] at hsplit
  · left
    rw [List.append_nil] at hsplit
    exact hsplit.symm
  · right
    have hblank : Text.isBlank d = true := by
      have hhead := List.head?_dropWhile_not (fun c => !Text.isBlank c) cs
      rw [hrest] at hhead
      simpa using hhead
    refine ⟨d, rest, hsplit.symm, ?_, ?_⟩
    · rw [isSeparator, hblank]
      rfl
    · rintro rfl
      cases hblank

section Unbroken

variable {V : Vocabulary} (hV : V.Spelled) {c : Char} (hc : Text.isBlank c = false) (cs : List Char)

include hV hc

theorem operandToken?_unbroken :
    operandToken? V (unbroken (c :: cs)) = operandToken? V (c :: cs) := by
  rw [unbroken_cons hc]
  rcases unbroken_cases cs with hcs | ⟨d, rest, hcs, hd, hopen⟩
  · rw [← hcs]
  · rw [← operandToken?_append hV hd hopen c (unbroken cs) rest, ← hcs]

theorem operatorToken?_unbroken :
    operatorToken? V (unbroken (c :: cs)) = operatorToken? V (c :: cs) := by
  rw [unbroken_cons hc]
  rcases unbroken_cases cs with hcs | ⟨d, rest, hcs, hd, -⟩
  · rw [← hcs]
  · rw [← operatorToken?_append hV hd c (unbroken cs) rest, ← hcs]

end Unbroken

theorem OperandToken.Writes.not_blank {V : Vocabulary} (hV : V.Spelled) {token : OperandToken}
    {word : List Char} (h : token.Writes V word) : ∀ c ∈ word, Text.isBlank c = false := by
  cases h with
  | openGroup => exact List.forall_mem_singleton.mpr rfl
  | number h =>
    intro c hc
    by_contra hblank
    rw [Bool.not_eq_false] at hblank
    exact h.not_mem (by rw [isSeparator, hblank]; rfl) hc
  | prefixed h => exact (hV.operators .prefixed h).not_blank
  | call h =>
    exact List.forall_mem_append.mpr
      ⟨(hV.operators .called h).not_blank, List.forall_mem_singleton.mpr rfl⟩
  | «variable» h => exact (hV.vars h).not_blank

theorem OperatorToken.Writes.not_blank {V : Vocabulary} (hV : V.Spelled) {token : OperatorToken}
    {word : List Char} (h : token.Writes V word) : ∀ c ∈ word, Text.isBlank c = false := by
  cases h with
  | closeGroup => exact List.forall_mem_singleton.mpr rfl
  | comma => exact List.forall_mem_singleton.mpr rfl
  | infixed h => exact (hV.operators .infixed h).not_blank
  | suffixed h => exact (hV.operators .suffixed h).not_blank

/-! ## Tokens in front of other white space -/

/-- Tokens that are looked up in unbroken fronts, and found in every front that holds them, are
found in front of other white space. -/
theorem token_respaced {α : Type} {token? : List Char → Option (α × Nat)}
    (hunbroken : ∀ {c}, Text.isBlank c = false →
      ∀ cs, token? (unbroken (c :: cs)) = token? (c :: cs))
    (hfront : ∀ {cs more : List Char} {token : α} {n : Nat},
      token? (cs ++ more) = some (token, n) → n ≤ cs.length → token? cs = some (token, n))
    {c : Char} {cs rest rest' : List Char} (hword : ∀ d ∈ c :: cs, Text.isBlank d = false)
    (hrest : unbroken rest' <+: unbroken rest) {token : α}
    (h : token? (c :: cs ++ rest) = some (token, (c :: cs).length)) :
    token? (c :: cs ++ rest') = some (token, (c :: cs).length) := by
  have hc := hword c List.mem_cons_self
  have hlookup : ∀ rest, token? (c :: cs ++ rest) = token? (c :: cs ++ unbroken rest) := by
    intro rest
    rw [← unbroken_append hword]
    exact (hunbroken hc (cs ++ rest)).symm
  obtain ⟨more, hmore⟩ := hrest
  rw [hlookup, ← hmore, ← List.append_assoc] at h
  rw [hlookup]
  exact hfront h (by rw [List.length_append]; exact Nat.le_add_right _ _)

section Behind

variable {V : Vocabulary} (hV : V.Spelled) {c : Char} {cs rest rest' : List Char}
  (hrest : unbroken rest' <+: unbroken rest)

include hV hrest

theorem operandToken?_respaced {token : OperandToken}
    (h : operandToken? V (c :: cs ++ rest) = some (token, (c :: cs).length)) :
    operandToken? V (c :: cs ++ rest') = some (token, (c :: cs).length) := by
  have hwrites := (operandToken?_writes h).2
  rw [List.take_left] at hwrites
  exact token_respaced (operandToken?_unbroken hV) (operandToken?_front hV)
    (hwrites.not_blank hV) hrest h

theorem operatorToken?_respaced {token : OperatorToken}
    (h : operatorToken? V (c :: cs ++ rest) = some (token, (c :: cs).length)) :
    operatorToken? V (c :: cs ++ rest') = some (token, (c :: cs).length) := by
  have hwrites := (operatorToken?_writes h).2
  rw [List.take_left] at hwrites
  exact token_respaced (operatorToken?_unbroken hV) operatorToken?_front (hwrites.not_blank hV)
    hrest h

end Behind

/-! ## Scans that differ in offsets -/

/-- A pending entry without its place in the text. -/
def Pending.unplaced : Pending → Pending
  | .operator op => .operator op
  | .group _ commas callee => .group 0 commas callee

@[simp] theorem Pending.unplaced_operator (op : Operator) :
    (operator op).unplaced = .operator op := rfl

@[simp] theorem Pending.unplaced_group (offset commas : Nat) (callee : Option Operator) :
    (group offset commas callee).unplaced = .group 0 commas callee := rfl

@[simp] theorem Pending.unplaced_unplaced (p : Pending) : p.unplaced.unplaced = p.unplaced := by
  cases p <;> rfl

namespace Scan

/-- A scan without the places of its groups. -/
def unplaced (s : Scan) : Scan := { s with pending := s.pending.map .unplaced }

theorem flush_unplaced (pending : List Pending) (out : List Instruction) :
    flush (pending.map .unplaced) out =
      ((flush pending out).1.map .unplaced, (flush pending out).2) := by
  induction pending generalizing out with
  | nil => rfl
  | cons p pending ih =>
    cases p with
    | operator op => exact ih (.apply op :: out)
    | group offset commas callee => rfl

theorem flushTighter_unplaced (priority : Nat) (pending : List Pending) (out : List Instruction) :
    flushTighter priority (pending.map .unplaced) out =
      ((flushTighter priority pending out).1.map .unplaced,
        (flushTighter priority pending out).2) := by
  induction pending generalizing out with
  | nil => rfl
  | cons p pending ih =>
    cases p with
    | operator op =>
      rw [List.map_cons, Pending.unplaced, flushTighter, flushTighter]
      by_cases h : op.priority < priority
      · rw [if_pos h, if_pos h]
        rfl
      · rw [if_neg h, if_neg h]
        exact ih (.apply op :: out)
    | group offset commas callee => rfl

/-- What a token does to a scan, places apart, does not depend on places. -/
theorem operand_unplaced (s : Scan) (first last : Nat) (token : OperandToken) :
    (s.operand first last token).toOption.map unplaced =
      (s.unplaced.operand 0 0 token).toOption.map unplaced := by
  cases token with
  | openGroup => simp [operand, unplaced, Except.toOption]
  | call f => simp [operand, unplaced, Except.toOption]
  | prefixed op => simp [operand, unplaced, Except.toOption]
  | «variable» v => simp [operand, unplaced, Except.toOption]
  | number text =>
    rw [operand, operand]
    cases Number.readFloat? text with
    | none => rfl
    | some x => simp [unplaced, Except.toOption]

theorem operator_unplaced (s : Scan) (offset : Nat) (token : OperatorToken) :
    (s.operator offset token).toOption.map unplaced =
      (s.unplaced.operator 0 token).toOption.map unplaced := by
  cases token with
  | suffixed op => simp [operator, unplaced, Except.toOption]
  | infixed op =>
    simp [operator, unplaced, Except.toOption, flushTighter_unplaced]
  | comma =>
    rw [operator, operator, unplaced, flush_unplaced]
    rcases flush s.pending s.out with ⟨_ | ⟨_ | _, pending⟩, out⟩ <;>
      simp [unplaced, Except.toOption]
  | closeGroup =>
    rw [operator, operator, unplaced, flush_unplaced]
    rcases flush s.pending s.out with ⟨_ | ⟨_ | ⟨offset', commas, callee⟩, pending⟩, out⟩
    · rfl
    · rfl
    · by_cases hcount : commas + 1 = groupArity callee <;>
        simp [hcount, unplaced, Except.toOption]

/-- Except for places, what is pending at the end of an expression are operators. -/
theorem eq_waiting_of_unplaced {pending : List Pending} {ops : List Operator}
    (h : pending.map .unplaced = (waiting ops []).map Pending.unplaced) :
    pending = waiting ops [] := by
  induction pending generalizing ops with
  | nil =>
    cases ops with
    | nil => rfl
    | cons op ops => cases h
  | cons p pending ih =>
    cases ops with
    | nil => cases h
    | cons op ops =>
      obtain ⟨hp, hpending⟩ := List.cons.inj h
      cases p with
      | operator op' =>
        cases hp
        rw [ih hpending, waiting_cons]
      | group offset commas callee => cases hp

section Step

variable {s t s' : Scan} (hst : t.unplaced = s.unplaced)

include hst

theorem exists_operand_unplaced {first last : Nat} {token : OperandToken}
    (h : s.operand first last token = .ok s') (first' last' : Nat) :
    ∃ t', t.operand first' last' token = .ok t' ∧ t'.unplaced = s'.unplaced := by
  have hsame := operand_unplaced t first' last' token
  rw [hst, ← operand_unplaced s first last, h] at hsame
  rcases ht : t.operand first' last' token with e | t' <;> rw [ht] at hsame
  · cases hsame
  · exact ⟨t', rfl, Option.some.inj hsame⟩

theorem exists_operator_unplaced {offset : Nat} {token : OperatorToken}
    (h : s.operator offset token = .ok s') (offset' : Nat) :
    ∃ t', t.operator offset' token = .ok t' ∧ t'.unplaced = s'.unplaced := by
  have hsame := operator_unplaced t offset' token
  rw [hst, ← operator_unplaced s offset, h] at hsame
  rcases ht : t.operator offset' token with e | t' <;> rw [ht] at hsame
  · cases hsame
  · exact ⟨t', rfl, Option.some.inj hsame⟩

end Step

end Scan

/-! ## The main theorem -/

open Scan

/-- The text of a scan from an offset to the end, with other white space where a step starts and at
the end. There may be white space where there was none; where there was some, there still is. -/
inductive Respaced (V : Vocabulary) : Nat → Scan → List Char → List Char → Prop where
  | blank {offset : Nat} {s : Scan} {bs bs' : List Char}
      (hbs : ∀ b ∈ bs, Text.isBlank b = true) (hbs' : ∀ b ∈ bs', Text.isBlank b = true) :
      Respaced V offset s bs bs'
  | token {offset : Nat} {s s' : Scan} (bs bs' : List Char) {c : Char} (cs : List Char)
      {rest rest' : List Char}
      (hbs : ∀ b ∈ bs, Text.isBlank b = true) (hbs' : ∀ b ∈ bs', Text.isBlank b = true)
      (hkept : bs ≠ [] → bs' ≠ []) (hc : Text.isBlank c = false)
      (hstep : s.step V (offset + Text.byteLength bs) c (cs ++ rest) =
        .ok ((c :: cs).length, s'))
      (hrest : Respaced V (offset + Text.byteLength bs + Text.byteLength (c :: cs)) s' rest rest') :
      Respaced V offset s (bs ++ (c :: cs ++ rest)) (bs' ++ (c :: cs ++ rest'))

/-- Every text that is scanned to its end is made of white space and tokens. -/
theorem respaced_self {V : Vocabulary} {offset : Nat} {s r : Scan} {text : List Char}
    (h : s.run V offset text = .ok r) : Respaced V offset s text text := by
  refine run_induction (P := fun offset cs s r => ∀ t, r = .ok t → Respaced V offset s cs cs)
    ?_ ?_ ?_ offset text s r h
  · intro offset bs s hbs _ _
    exact .blank hbs hbs
  · intro offset bs c cs s e _ _ _ t h
    cases h
  · intro offset bs c cs s n s' r hbs hc hstep ih t h
    have hn := step_length_le hstep
    obtain ⟨k, rfl⟩ : ∃ k, n = k + 1 := ⟨n - 1, by have := step_pos hstep; omega⟩
    have hsplit : c :: cs = c :: cs.take k ++ cs.drop k := by
      rw [List.cons_append, List.take_append_drop]
    have hk : (c :: cs.take k).length = k + 1 := by
      rw [List.length_cons, List.length_take, Nat.min_eq_left (Nat.le_of_succ_le_succ hn)]
    rw [hsplit]
    exact .token bs bs _ hbs hbs id hc (by rw [List.take_append_drop, hk, hstep]) (ih t h)

theorem word_not_blank {V : Vocabulary} (hV : V.Spelled) {offset : Nat} {c : Char}
    {cs rest : List Char} {s s' : Scan}
    (h : s.step V offset c (cs ++ rest) = .ok ((c :: cs).length, s')) :
    ∀ d ∈ c :: cs, Text.isBlank d = false := by
  obtain ⟨-, token, htoken, -⟩ | ⟨-, token, htoken, -⟩ := step_cases h
  · have hwrites := (operandToken?_writes htoken).2
    rw [← List.cons_append, List.take_left] at hwrites
    exact hwrites.not_blank hV
  · have hwrites := (operatorToken?_writes htoken).2
    rw [← List.cons_append, List.take_left] at hwrites
    exact hwrites.not_blank hV

/-- White space is never taken away, so the text starts with no longer word than before. -/
theorem Respaced.unbroken_prefix {V : Vocabulary} (hV : V.Spelled) {offset : Nat} {s : Scan}
    {text text' : List Char} (h : Respaced V offset s text text') :
    unbroken text' <+: unbroken text := by
  induction h with
  | @blank offset s bs bs' hbs hbs' =>
    cases bs' with
    | nil => exact List.nil_prefix
    | cons b bs' =>
      rw [← List.append_nil (b :: bs'), unbroken_blanks hbs' (List.cons_ne_nil _ _)]
      exact List.nil_prefix
  | @token offset s s' bs bs' c cs rest rest' hbs hbs' hkept hc hstep hrest ih =>
    by_cases hnil : bs' = []
    · have hbs_nil : bs = [] := by
        by_contra hne
        exact hkept hne hnil
      have hword := word_not_blank hV hstep
      rw [hnil, hbs_nil, List.nil_append, List.nil_append, unbroken_append hword,
        unbroken_append hword]
      exact (List.prefix_append_right_inj _).mpr ih
    · rw [unbroken_blanks hbs' hnil]
      exact List.nil_prefix

/-- A step reads the same token in front of other white space. -/
theorem exists_step_respaced {V : Vocabulary} (hV : V.Spelled) {offset : Nat} {c : Char}
    {cs rest rest' : List Char} {s t s' : Scan} (hst : t.unplaced = s.unplaced)
    (h : s.step V offset c (cs ++ rest) = .ok ((c :: cs).length, s'))
    (hrest : unbroken rest' <+: unbroken rest) (offset' : Nat) :
    ∃ t', t.step V offset' c (cs ++ rest') = .ok ((c :: cs).length, t') ∧
      t'.unplaced = s'.unplaced := by
  have hneeds : t.needsOperand = s.needsOperand := by
    change t.unplaced.needsOperand = s.unplaced.needsOperand
    rw [hst]
  obtain ⟨hs, token, htoken, hs'⟩ | ⟨hs, token, htoken, hs'⟩ := step_cases h
  · have htoken' := operandToken?_respaced hV hrest htoken
    obtain ⟨t', ht', hlike⟩ := exists_operand_unplaced hst hs' offset'
      (offset' + Text.byteLength ((c :: (cs ++ rest')).take (c :: cs).length))
    refine ⟨t', ?_, hlike⟩
    rw [step, hneeds, if_pos hs, ← List.cons_append, htoken']
    dsimp only
    rw [List.cons_append, ht']
    rfl
  · have htoken' := operatorToken?_respaced hV hrest htoken
    obtain ⟨t', ht', hlike⟩ := exists_operator_unplaced hst hs' offset'
    refine ⟨t', ?_, hlike⟩
    rw [step, hneeds, if_neg (Bool.eq_false_iff.mp hs), ← List.cons_append, htoken']
    dsimp only
    rw [ht']
    rfl

/-- Both scans read the same tokens and end alike. -/
theorem Respaced.run_unplaced {V : Vocabulary} (hV : V.Spelled) {offset : Nat} {s : Scan}
    {text text' : List Char} (h : Respaced V offset s text text') {t : Scan}
    (hst : t.unplaced = s.unplaced) (offset' : Nat) :
    ∃ r r', s.run V offset text = .ok r ∧ t.run V offset' text' = .ok r' ∧
      r'.unplaced = r.unplaced := by
  induction h generalizing t offset' with
  | @blank offset s bs bs' hbs hbs' =>
    have hblank : ∀ {cs}, (∀ b ∈ cs, Text.isBlank b = true) → Text.dropBlanks cs = [] :=
      fun hcs => List.dropWhile_eq_nil_iff.mpr hcs
    exact ⟨s, t, run_blank (hblank hbs) offset s, run_blank (hblank hbs') offset' t, hst⟩
  | @token offset s s' bs bs' c cs rest rest' hbs hbs' hkept hc hstep hrest ih =>
    obtain ⟨t', hstep', hst'⟩ := exists_step_respaced hV hst hstep (hrest.unbroken_prefix hV)
      (offset' + Text.byteLength bs')
    obtain ⟨r, r', hr, hr', hlike⟩ := ih hst'
      (offset' + Text.byteLength bs' + Text.byteLength (c :: cs))
    refine ⟨r, r', ?_, ?_, hlike⟩
    · rw [run_blanks_append hbs, run_word c cs rest hc hstep, hr]
    · rw [run_blanks_append hbs', run_word c cs rest' hc hstep', hr']

/-- An expression with other white space between its tokens, in front of them or at its end
compiles to the same program. -/
theorem compile_respaced {V : Vocabulary} (hV : V.Reachable) {text text' : List Char} {p : Program}
    (h : compile V text = .ok p) (hspace : Respaced V 0 start text text') :
    compile V text' = .ok p := by
  obtain ⟨ops, out, hrun, rfl⟩ := compile_eq_ok_iff.mp h
  obtain ⟨r, r', hr, hr', hlike⟩ := hspace.run_unplaced hV.spelled rfl 0
  rw [hrun, Except.ok.injEq] at hr
  subst hr
  obtain ⟨out', pending, needs⟩ := r'
  obtain ⟨hout, hpending, hneeds⟩ := Scan.mk.inj hlike
  change out' = out at hout
  change needs = false at hneeds
  change pending.map Pending.unplaced = _ at hpending
  rw [hout, hneeds, eq_waiting_of_unplaced hpending] at hr'
  exact compile_eq_ok_iff.mpr ⟨ops, out, hr', rfl⟩

/-- White space of another kind, and some where there was none. -/
theorem compile_respaced_call :
    ∃ (V : Vocabulary) (p : Program), V.Reachable ∧ compile V "f(x) +x".toList = .ok p ∧
      Respaced V 0 start "f(x) +x".toList "\tf( x)\u00a0 + x\n".toList ∧
      compile V "\tf( x)\u00a0 + x\n".toList = .ok p := by
  let x : Variable := ⟨"x", .free, 0⟩
  let f : Operator := .called "f" 1 fun _ => 0.0
  let plus : Operator := .infixed "+" 10 fun _ => 0.0
  let V₁ : Vocabulary := { Vocabulary.empty with vars := ⟨.node 'x' (some x) .nil .nil, 1⟩ }
  let V₂ : Vocabulary := { V₁ with functions := ⟨.node 'f' (some f) .nil .nil, 1⟩ }
  let V : Vocabulary := { V₂ with infixes := ⟨.node '+' (some plus) .nil .nil, 1⟩ }
  have hx : Vocabulary.empty.addVariable .empty "x" .free 0.0 =
      .ok (x, V₁, Store.empty.push 0.0) := rfl
  have hf : V₁.addFunction "f" 1 (fun _ => 0.0) = .ok V₂ :=
    Vocabulary.addOperator_of_enter (show Vocabulary.enter .functions .empty "f" f = _ from rfl)
  have hplus : V₂.addOperator plus = .ok V :=
    Vocabulary.addOperator_of_enter (show Vocabulary.enter .infixes .empty "+" plus = _ from rfl)
  have hV : V.Reachable := ((Vocabulary.Reachable.empty.addVariable hx).addFunction hf).addInfix hplus
  let called : Scan := ⟨[], [.group 1 0 (some f)], true⟩
  let closed : Scan := ⟨[.apply f, .load x], [], false⟩
  let added : Scan := ⟨[.apply f, .load x], [.operator plus], true⟩
  let done : Scan := ⟨[.load x, .apply f, .load x], [.operator plus], false⟩
  have hcall : start.step V 0 'f' "(x) +x".toList = .ok (2, called) := rfl
  have hargument : called.step V 2 'x' ") +x".toList =
      .ok (1, ⟨[.load x], [.group 1 0 (some f)], false⟩) := rfl
  have hclose : step V 3 ')' " +x".toList ⟨[.load x], [.group 1 0 (some f)], false⟩ =
      .ok (1, closed) := rfl
  have hadd : closed.step V 5 '+' ['x'] = .ok (1, added) := rfl
  have hload : added.step V 6 'x' [] = .ok (1, done) := rfl
  have hone : ∀ {c}, Text.isBlank c = true → ∀ b ∈ [c], Text.isBlank b = true :=
    fun hc => List.forall_mem_singleton.mpr hc
  have hnone : ∀ b ∈ ([] : List Char), Text.isBlank b = true := fun _ hb => nomatch hb
  have hspace : Respaced V 0 start "f(x) +x".toList "\tf( x)\u00a0 + x\n".toList :=
    .token [] ['\t'] ['('] hnone (hone rfl) (fun h => absurd rfl h) rfl hcall
      (.token [] [' '] [] hnone (hone rfl) (fun h => absurd rfl h) rfl hargument
        (.token [] [] [] hnone hnone (fun h => absurd rfl h) rfl hclose
          (.token [' '] ['\u00a0', ' '] [] (hone rfl)
            (List.forall_mem_cons.mpr ⟨rfl, hone rfl⟩) (fun _ => List.cons_ne_nil _ _) rfl hadd
            (.token [] [' '] [] hnone (hone rfl) (fun h => absurd rfl h) rfl hload
              (.blank hnone (hone rfl))))))
  have hbehind : start.run V 0 "f(x) +x".toList = closed.run V 4 " +x".toList :=
    (run_word 'f' ['('] _ rfl hcall).trans
      ((run_word 'x' [] _ rfl hargument).trans (run_word ')' [] _ rfl hclose))
  have hrest : closed.run V 4 " +x".toList = done.run V 7 [] :=
    (run_blanks_append (hone (c := ' ') rfl) 4 _ closed).trans
      ((run_word '+' [] ['x'] rfl hadd).trans (run_word 'x' [] [] rfl hload))
  have hrun : start.run V 0 "f(x) +x".toList = .ok done :=
    hbehind.trans (hrest.trans (run_blank rfl 7 done))
  have hcompile : compile V "f(x) +x".toList = .ok ⟨[.load x, .apply f, .load x, .apply plus]⟩ :=
    compile_eq_ok_iff.mpr ⟨[plus], done.out, hrun, rfl⟩
  exact ⟨V, _, hV, hcompile, hspace, compile_respaced hV hcompile hspace⟩

end ImplicitPlot.Expression

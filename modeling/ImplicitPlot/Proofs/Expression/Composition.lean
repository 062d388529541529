import ImplicitPlot.Proofs.Expression.Context

/-
  Expressions put together from expressions. Between parentheses a text that compiles can stand
  wherever an operand can: behind a prefix operator, in front of a suffix operator, on either side
  of an infix operator and, with commas, as an argument of a function. The program of the whole
  is then made of the programs of the parts and the operator, whatever the priorities are
  (`compile_composes`).

  Behind each argument a group counts; at its closing parenthesis it has as many arguments as it
  takes or the scan fails there (`run_arguments`).
-/
namespace ImplicitPlot.Expression

open Symbols Scan

/-- A text between parentheses. -/
def parenthesised (text : List Char) : List Char := '(' :: (text ++ [')'])

/-- Texts with commas between them. -/
def commaSeparated (texts : List (List Char)) : List Char := [','].intercalate texts

variable {V : Vocabulary}

/-! ## Groups -/

section Groups

variable (hV : V.Spelled)

include hV

theorem run_comma {text : List Char} {p : Program} (h : compile V text = .ok p)
    (offset : Nat) (code : List Instruction) (opened commas : Nat) (callee : Option Operator)
    (pending : List Pending) (rest : List Char) :
    run V offset (text ++ ',' :: rest) ⟨code, .group opened commas callee :: pending, true⟩ =
      run V (offset + Text.byteLength text + 1) rest
        ⟨p.code.reverse ++ code, .group opened (commas + 1) callee :: pending, true⟩ := by
  obtain ⟨ops, out, hrun, hemit⟩ := run_expression hV h (d := ',') rfl (by decide)
    (topBelow_group 0 opened commas callee pending) offset code rest
  rw [hrun, ← hemit]
  refine run_operator ',' [] rest (by decide) rfl rfl ?_
  rw [operator, flush_waiting, flush_group]

theorem run_close {text : List Char} {p : Program} (h : compile V text = .ok p)
    (offset : Nat) (code : List Instruction) (opened commas : Nat) (callee : Option Operator)
    (pending : List Pending) (rest : List Char) :
    run V offset (text ++ ')' :: rest) ⟨code, .group opened commas callee :: pending, true⟩ =
      if commas + 1 = groupArity callee then
        run V (offset + Text.byteLength text + 1) rest
          ⟨(callee.map Instruction.apply).toList ++ (p.code.reverse ++ code), pending, false⟩
      else .error
        (.argumentCount (offset + Text.byteLength text) (groupArity callee) (commas + 1)) := by
  obtain ⟨ops, out, hrun, hemit⟩ := run_expression hV h (d := ')') rfl (by decide)
    (topBelow_group 0 opened commas callee pending) offset code rest
  rw [hrun, ← hemit]
  by_cases hcount : commas + 1 = groupArity callee
  · rw [if_pos hcount]
    refine run_operator ')' [] rest (by decide) rfl rfl ?_
    rw [operator, flush_waiting, flush_group]
    exact if_pos hcount
  · rw [if_neg hcount]
    refine run_operator_error ')' [] rest (by decide) rfl rfl ?_
    rw [operator, flush_waiting, flush_group]
    exact if_neg hcount

/-- The arguments of a group up to its closing parenthesis, which fails if they are too many or
too few. -/
theorem run_arguments {parts : List (List Char × Program)} (hne : parts ≠ [])
    (hparts : ∀ part ∈ parts, compile V part.1 = .ok part.2) (offset : Nat)
    (code : List Instruction) (opened commas : Nat) (callee : Option Operator)
    (pending : List Pending) (rest : List Char) :
    run V offset (commaSeparated (parts.map Prod.fst) ++ ')' :: rest)
        ⟨code, .group opened commas callee :: pending, true⟩ =
      if commas + parts.length = groupArity callee then
        run V (offset + Text.byteLength (commaSeparated (parts.map Prod.fst)) + 1) rest
          ⟨(callee.map Instruction.apply).toList ++
            ((parts.flatMap fun part => part.2.code).reverse ++ code), pending, false⟩
      else .error (.argumentCount (offset + Text.byteLength (commaSeparated (parts.map Prod.fst)))
        (groupArity callee) (commas + parts.length)) := by
  induction parts generalizing offset code commas with
  | nil => exact absurd rfl hne
  | cons part parts ih =>
    have hpart := hparts part List.mem_cons_self
    cases parts with
    | nil =>
      simp only [List.map_cons, List.map_nil, commaSeparated, List.intercalate_singleton,
        List.flatMap_cons, List.flatMap_nil, List.append_nil, List.length_singleton]
      exact run_close hV hpart offset code opened commas callee pending rest
    | cons next parts =>
      have hrest := ih (List.cons_ne_nil next parts)
        (fun p hp => hparts p (List.mem_cons_of_mem part hp))
        (offset + Text.byteLength part.1 + 1) (part.2.code.reverse ++ code) (commas + 1)
      have htext : commaSeparated ((part :: next :: parts).map Prod.fst) =
          part.1 ++ ',' :: commaSeparated ((next :: parts).map Prod.fst) := by
        simp only [List.map_cons, commaSeparated, List.intercalate_cons_cons, List.append_assoc,
          List.singleton_append]
      have hcount : commas + 1 + (next :: parts).length =
          commas + (part :: next :: parts).length := by
        simp only [List.length_cons]
        omega
      have hlength : ∀ text, offset + Text.byteLength (part.1 ++ ',' :: text) =
          offset + Text.byteLength part.1 + 1 + Text.byteLength text := by
        intro text
        rw [Text.byteLength_append, Text.byteLength_cons, show ','.utf8Size = 1 from rfl]
        omega
      have hcode : ((part :: next :: parts).flatMap fun part => part.2.code).reverse ++ code =
          ((next :: parts).flatMap fun part => part.2.code).reverse ++
            (part.2.code.reverse ++ code) := by
        rw [List.flatMap_cons, List.reverse_append, List.append_assoc]
      rw [htext, List.append_assoc, List.cons_append, run_comma hV hpart, hrest, hcount, hlength,
        hcode]

/-- An expression between parentheses, where an operand is needed. -/
theorem run_parenthesised {text : List Char} {p : Program} (h : compile V text = .ok p)
    (offset : Nat) (code : List Instruction) (pending : List Pending) (rest : List Char) :
    run V offset (parenthesised text ++ rest) ⟨code, pending, true⟩ =
      run V (offset + Text.byteLength (parenthesised text)) rest
        ⟨p.code.reverse ++ code, pending, false⟩ := by
  have hopen : run V offset ('(' :: [] ++ (text ++ ')' :: rest)) ⟨code, pending, true⟩ =
      run V (offset + 1) (text ++ ')' :: rest) ⟨code, .group offset 0 none :: pending, true⟩ :=
    run_operand '(' [] _ (by decide) rfl rfl rfl
  have hlength : offset + 1 + Text.byteLength text + 1 =
      offset + Text.byteLength (parenthesised text) := by
    simp only [parenthesised, Text.byteLength_cons, Text.byteLength_append, Text.byteLength_nil,
      show '('.utf8Size = 1 from rfl, show ')'.utf8Size = 1 from rfl]
    omega
  have hclose := run_close hV h (offset + 1) code offset 0 none pending rest
  rw [if_pos (show 0 + 1 = groupArity none from rfl), hlength] at hclose
  rw [parenthesised, List.cons_append, List.append_assoc, List.singleton_append]
  exact hopen.trans hclose

/-- An infix operator between an operand and a separator. -/
theorem run_infixed {name : List Char} {op : Operator} (hop : V.infixes.get? name = some op)
    {d : Char} (hd : isSeparator d = true) (offset : Nat) (code : List Instruction)
    (pending : List Pending) (rest : List Char) :
    run V offset (name ++ d :: rest) ⟨code, pending, false⟩ =
      run V (offset + Text.byteLength name) (d :: rest)
        ⟨(flushTighter op.priority pending code).2,
          .operator op :: (flushTighter op.priority pending code).1, true⟩ := by
  have htoken := operatorToken?_infixed hV hd hop rest
  have hspells : Table.infixes.Spells name := hV.operators .infixed hop
  obtain ⟨c, cs, rfl, hc⟩ := hspells.exists_cons
  exact run_operator c cs _ hc rfl htoken rfl

end Groups

/-! ## Whole texts -/

theorem compile_of_run {text : List Char} (ops : List Operator) {out : List Instruction} {n : Nat}
    (h : start.run V 0 text = run V n [] ⟨out, waiting ops [], false⟩) :
    compile V text = .ok ⟨(emit ops out).reverse⟩ :=
  compile_eq_ok_iff.mpr ⟨ops, out, h.trans (run_blank rfl n _), rfl⟩

theorem compile_of_run_error {text : List Char} {e : SyntaxError}
    (h : start.run V 0 text = .error e) : compile V text = .error e := by
  unfold compile
  rw [h]
  rfl

section Parts

variable (hV : V.Spelled)

include hV

theorem compile_parenthesised {text : List Char} {p : Program} (h : compile V text = .ok p) :
    compile V (parenthesised text) = .ok p := by
  have hrun := run_parenthesised hV h 0 [] [] []
  rw [List.append_nil, List.append_nil] at hrun
  rw [compile_of_run [] hrun, emit_nil, List.reverse_reverse]

/-- A prefix operator in front of a parenthesis. -/
theorem compile_prefixed {text name : List Char} {p : Program} {op : Operator}
    (h : compile V text = .ok p) (hop : V.prefixes.get? name = some op)
    (hdigit : ∀ c cs, name = c :: cs → c.isDigit = false) :
    compile V (name ++ parenthesised text) = .ok (p.push (.apply op)) := by
  have htoken : operandToken? V (name ++ parenthesised text) = some (.prefixed op, name.length) :=
    operandToken?_prefixed hV hop hdigit _
  have hspells : Table.prefixes.Spells name := hV.operators .prefixed hop
  obtain ⟨c, cs, rfl, hc⟩ := hspells.exists_cons
  have hname : start.run V 0 (c :: cs ++ parenthesised text) = _ :=
    run_operand c cs _ hc rfl htoken rfl
  have hrun := run_parenthesised hV h (0 + Text.byteLength (c :: cs)) [] [.operator op] []
  rw [List.append_nil, List.append_nil] at hrun
  rw [compile_of_run [op] (hname.trans hrun), emit_cons, emit_nil, List.reverse_cons,
    List.reverse_reverse]
  rfl

/-- A suffix operator behind a parenthesis. -/
theorem compile_suffixed {text name : List Char} {p : Program} {op : Operator}
    (h : compile V text = .ok p) (hop : V.suffixes.get? name = some op)
    (hfree : ∀ front, front <+: name → V.infixes.get? front = none) :
    compile V (parenthesised text ++ name) = .ok (p.push (.apply op)) := by
  have htoken : operatorToken? V (name ++ []) = some (.suffixed op, name.length) := by
    rw [List.append_nil]
    exact operatorToken?_suffixed hV hop hfree
  have hspells : Table.suffixes.Spells name := hV.operators .suffixed hop
  obtain ⟨c, cs, rfl, hc⟩ := hspells.exists_cons
  have hrun := run_parenthesised hV h 0 [] [] (c :: cs)
  rw [List.append_nil] at hrun
  have hname := run_operator c cs [] hc rfl htoken
    (show operator ⟨p.code.reverse, [], false⟩ (0 + Text.byteLength (parenthesised text)) _ =
      .ok ⟨.apply op :: p.code.reverse, [], false⟩ from rfl)
  rw [List.append_nil] at hname
  rw [compile_of_run [] (hrun.trans hname), emit_nil, List.reverse_cons, List.reverse_reverse]
  rfl

/-- An infix operator between parentheses. -/
theorem compile_infixed {left right name : List Char} {p q : Program} {op : Operator}
    (hleft : compile V left = .ok p) (hright : compile V right = .ok q)
    (hop : V.infixes.get? name = some op) :
    compile V (parenthesised left ++ name ++ parenthesised right) =
      .ok ((p ++ q).push (.apply op)) := by
  have hfirst := run_parenthesised hV hleft 0 [] [] (name ++ parenthesised right)
  rw [List.append_nil, ← List.append_assoc] at hfirst
  have hname : run V (0 + Text.byteLength (parenthesised left)) (name ++ parenthesised right)
        ⟨p.code.reverse, [], false⟩ =
      run V (0 + Text.byteLength (parenthesised left) + Text.byteLength name) (parenthesised right)
        ⟨p.code.reverse, [.operator op], true⟩ :=
    run_infixed hV hop (d := '(') rfl _ _ [] (right ++ [')'])
  have hsecond := run_parenthesised hV hright
    (0 + Text.byteLength (parenthesised left) + Text.byteLength name) p.code.reverse
    [.operator op] []
  rw [List.append_nil] at hsecond
  rw [compile_of_run [op] ((hfirst.trans hname).trans hsecond), emit_cons, emit_nil,
    List.reverse_cons, List.reverse_append, List.reverse_reverse, List.reverse_reverse]
  rfl

/-- A call with its arguments. -/
theorem run_call {name : List Char} {f : Operator} {parts : List (List Char × Program)}
    (hne : parts ≠ []) (hparts : ∀ part ∈ parts, compile V part.1 = .ok part.2)
    (hf : V.functions.get? name = some f)
    (hfree : ∀ front, front <+: name → V.prefixes.get? front = none) :
    let opened := name ++ '(' :: commaSeparated (parts.map Prod.fst)
    start.run V 0 (name ++ parenthesised (commaSeparated (parts.map Prod.fst))) =
      if parts.length = f.arity then
        run V (Text.byteLength opened + 1) []
          ⟨.apply f :: (parts.flatMap fun part => part.2.code).reverse, [], false⟩
      else .error (.argumentCount (Text.byteLength opened) f.arity parts.length) := by
  intro opened
  let arguments := commaSeparated (parts.map Prod.fst)
  have htoken : operandToken? V ((name ++ ['(']) ++ (arguments ++ [')'])) =
      some (.call f, (name ++ ['(']).length) := by
    rw [List.append_assoc, List.length_append]
    exact operandToken?_call hV hf hfree (arguments ++ [')'])
  have hlength : 0 + Text.byteLength (name ++ ['(']) + Text.byteLength arguments =
      Text.byteLength opened := by
    simp only [opened, arguments, Text.byteLength_append, Text.byteLength_cons, Text.byteLength_nil]
    omega
  have hspells : Table.functions.Spells name := hV.operators .called hf
  obtain ⟨c, cs, rfl, hc⟩ := hspells.exists_cons
  have hname : start.run V 0 _ = _ := run_operand c _ _ hc rfl htoken rfl
  have harguments := run_arguments hV hne hparts (0 + Text.byteLength (c :: cs ++ ['('])) []
    (0 + Text.byteLength (c :: cs ++ ['(']) - 1) 0 (some f) [] []
  rw [hlength, Nat.zero_add parts.length, List.append_nil] at harguments
  rw [parenthesised, List.append_cons]
  exact hname.trans harguments

theorem compile_called {name : List Char} {f : Operator} {parts : List (List Char × Program)}
    (hne : parts ≠ []) (hparts : ∀ part ∈ parts, compile V part.1 = .ok part.2)
    (hf : V.functions.get? name = some f)
    (hfree : ∀ front, front <+: name → V.prefixes.get? front = none) :
    compile V (name ++ parenthesised (commaSeparated (parts.map Prod.fst))) =
      if parts.length = f.arity then
        .ok (Program.push ⟨parts.flatMap fun part => part.2.code⟩ (.apply f))
      else .error (.argumentCount
        (Text.byteLength (name ++ '(' :: commaSeparated (parts.map Prod.fst))) f.arity
          parts.length) := by
  have hrun := run_call hV hne hparts hf hfree
  dsimp only at hrun
  split <;> rename_i hcount
  · rw [if_pos hcount] at hrun
    rw [compile_of_run [] hrun, emit_nil, List.reverse_cons, List.reverse_reverse]
    rfl
  · rw [if_neg hcount] at hrun
    exact compile_of_run_error hrun

end Parts

/-! ## The main theorem -/

/-- Compiling composes. In a reachable vocabulary a text that compiles has the same program between
parentheses; with a prefix operator in front, a suffix operator behind or an infix operator between
two such texts, the program is that of the texts and then the operator. A prefix operator must not
start as a number does, nor a suffix operator with an infix operator. With a function in front that
does not start with a prefix operator, and commas between the texts, the program is that of all
texts and then the function, if these are as many as the function takes; otherwise the text fails
at the closing parenthesis with both numbers. -/
theorem compile_composes (hV : V.Reachable) :
    (∀ text p, compile V text = .ok p →
      compile V (parenthesised text) = .ok p ∧
      (∀ name op, V.prefixes.get? name = some op →
        (∀ c cs, name = c :: cs → c.isDigit = false) →
          compile V (name ++ parenthesised text) = .ok (p.push (.apply op))) ∧
      ∀ name op, V.suffixes.get? name = some op →
        (∀ front, front <+: name → V.infixes.get? front = none) →
          compile V (parenthesised text ++ name) = .ok (p.push (.apply op))) ∧
    (∀ left p right q, compile V left = .ok p → compile V right = .ok q →
      ∀ name op, V.infixes.get? name = some op →
        compile V (parenthesised left ++ name ++ parenthesised right) =
          .ok ((p ++ q).push (.apply op))) ∧
    ∀ parts : List (List Char × Program), parts ≠ [] →
      (∀ part ∈ parts, compile V part.1 = .ok part.2) →
      ∀ name f, V.functions.get? name = some f →
        (∀ front, front <+: name → V.prefixes.get? front = none) →
        let arguments := commaSeparated (parts.map Prod.fst)
        (parts.length = f.arity → compile V (name ++ parenthesised arguments) =
          .ok (Program.push ⟨parts.flatMap fun part => part.2.code⟩ (.apply f))) ∧
        (parts.length ≠ f.arity → compile V (name ++ parenthesised arguments) =
          .error (.argumentCount (Text.byteLength (name ++ '(' :: arguments)) f.arity
            parts.length)) := by
  have hspelled := hV.spelled
  refine ⟨fun text p h => ⟨compile_parenthesised hspelled h, ?_, ?_⟩, ?_, ?_⟩
  · intro name op hop hdigit
    exact compile_prefixed hspelled h hop hdigit
  · intro name op hop hfree
    exact compile_suffixed hspelled h hop hfree
  · intro left p right q hleft hright name op hop
    exact compile_infixed hspelled hleft hright hop
  · intro parts hne hparts name f hf hfree arguments
    have hcall := compile_called hspelled hne hparts hf hfree
    refine ⟨fun hcount => ?_, fun hcount => ?_⟩
    · rwa [if_pos hcount] at hcall
    · rwa [if_neg hcount] at hcall

/-- One variable with an operator of each fixity, and a call with too few arguments. -/
theorem compile_composes_each_fixity :
    ∃ (V : Vocabulary) (x : Variable) (minus bang plus f : Operator), V.Reachable ∧
      compile V ['x'] = .ok ⟨[.load x]⟩ ∧
      compile V "(x)".toList = .ok ⟨[.load x]⟩ ∧
      compile V "-(x)".toList = .ok ⟨[.load x, .apply minus]⟩ ∧
      compile V "(x)!".toList = .ok ⟨[.load x, .apply bang]⟩ ∧
      compile V "(x)+(x)".toList = .ok ⟨[.load x, .load x, .apply plus]⟩ ∧
      compile V "f(x,x)".toList = .ok ⟨[.load x, .load x, .apply f]⟩ ∧
      compile V "f(x)".toList = .error (.argumentCount 3 2 1) := by
  let x : Variable := ⟨"x", .free, 0⟩
  let minus : Operator := .prefixed "-" 20 fun _ => 0.0
  let bang : Operator := .suffixed "!" fun _ => 0.0
  let plus : Operator := .infixed "+" 10 fun _ => 0.0
  let f : Operator := .called "f" 2 fun _ => 0.0
  let V₁ : Vocabulary := { Vocabulary.empty with vars := ⟨.node 'x' (some x) .nil .nil, 1⟩ }
  let V₂ : Vocabulary := { V₁ with prefixes := ⟨.node '-' (some minus) .nil .nil, 1⟩ }
  let V₃ : Vocabulary := { V₂ with suffixes := ⟨.node '!' (some bang) .nil .nil, 1⟩ }
  let V₄ : Vocabulary := { V₃ with infixes := ⟨.node '+' (some plus) .nil .nil, 1⟩ }
  let V : Vocabulary := { V₄ with functions := ⟨.node 'f' (some f) .nil .nil, 1⟩ }
  have hx : Vocabulary.empty.addVariable .empty "x" .free 0.0 =
      .ok (x, V₁, Store.empty.push 0.0) := rfl
  have hminus : V₁.addOperator minus = .ok V₂ :=
    Vocabulary.addOperator_of_enter (show Vocabulary.enter .prefixes .empty "-" minus = _ from rfl)
  have hbang : V₂.addOperator bang = .ok V₃ :=
    Vocabulary.addOperator_of_enter (show Vocabulary.enter .suffixes .empty "!" bang = _ from rfl)
  have hplus : V₃.addOperator plus = .ok V₄ :=
    Vocabulary.addOperator_of_enter (show Vocabulary.enter .infixes .empty "+" plus = _ from rfl)
  have hf : V₄.addFunction "f" 2 (fun _ => 0.0) = .ok V :=
    Vocabulary.addOperator_of_enter (show Vocabulary.enter .functions .empty "f" f = _ from rfl)
  have hV : V.Reachable :=
    ((((Vocabulary.Reachable.empty.addVariable hx).addPrefix hminus).addSuffix hbang).addInfix
      hplus).addFunction hf
  have hrun : start.run V 0 ['x'] = run V 1 [] ⟨[.load x], [], false⟩ :=
    run_operand 'x' [] [] rfl rfl rfl rfl
  have hload : compile V ['x'] = .ok ⟨[.load x]⟩ := compile_of_run [] hrun
  have hfree : ∀ {α : Type} (t : Trie α) (c : Char), t.get? [] = none → t.get? [c] = none →
      ∀ front, front <+: [c] → t.get? front = none := by
    intro α t c hempty hc front hfront
    rcases List.prefix_cons_iff.mp hfront with rfl | ⟨l, rfl, hl⟩
    · exact hempty
    · rw [List.prefix_nil.mp hl]
      exact hc
  obtain ⟨hunary, hinfixed, hcalled⟩ := compile_composes hV
  obtain ⟨hparen, hprefixed, hsuffixed⟩ := hunary _ _ hload
  have hloads : ∀ n, ∀ part ∈ List.replicate n (['x'], (⟨[.load x]⟩ : Program)),
      compile V part.1 = .ok part.2 := by
    intro n part hpart
    rw [List.eq_of_mem_replicate hpart]
    exact hload
  have hone := hcalled _ (List.cons_ne_nil _ _) (hloads 1) ['f'] f rfl (hfree _ _ rfl rfl)
  have htwo := hcalled _ (List.cons_ne_nil _ _) (hloads 2) ['f'] f rfl (hfree _ _ rfl rfl)
  exact ⟨V, x, minus, bang, plus, f, hV, hload, hparen,
    hprefixed ['-'] minus rfl (fun c cs h => by cases h; rfl),
    hsuffixed ['!'] bang rfl (hfree _ _ rfl rfl), hinfixed _ _ _ _ hload hload ['+'] plus rfl,
    htwo.1 rfl, hone.2 (by decide)⟩

end ImplicitPlot.Expression

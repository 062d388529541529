import ImplicitPlot.Proofs.Expression.Outcome

/-
  The scan agrees with precedence climbing. Behind an expression of the parser the scan has the
  code of its tree, except for the operators that still wait: they stand on top of the stack that
  was there before, and writing them out completes the code (`Reaches`). An infix operator that
  comes next never binds tighter than one of them, so when the parser goes on with that operator
  the scan writes out all of them, and none that was there before, because those bind looser than
  the parser's bound (`TopBelow`).

  Each reader of the parser agrees with the scan if the readers that it calls do
  (`operand_agrees`, `expression_agrees`, `climb_agrees`, `arguments_agree`); they call each other
  on shorter texts, so all of them do (`agrees`).
-/
namespace ImplicitPlot.Expression

open Symbols Scan

variable {V : Vocabulary}

/-! ## What comes next -/

/-- No suffix operator comes next, and no infix operator that binds tighter than one of the
waiting operators. -/
structure Settled (V : Vocabulary) (ops : List Operator) (cs : List Char) : Prop where
  not_suffixed : ∀ op rest, operatorAt? V cs ≠ some (.suffixed op, rest)
  infixed_le : ∀ op rest, operatorAt? V cs = some (.infixed op, rest) →
    ∀ o ∈ ops, op.priority ≤ o.priority

/-- An infix operator that comes next binds looser than `m`. -/
def LooserNext (V : Vocabulary) (m : Nat) (cs : List Char) : Prop :=
  ∀ op rest, operatorAt? V cs = some (.infixed op, rest) → op.priority < m

/-- Below the operators that wait in a right operand waits the operator that it belongs to. -/
theorem Settled.concat {ops : List Operator} {op : Operator} {cs : List Char}
    (hsettled : Settled V ops cs) (hlooser : LooserNext V (op.priority + 1) cs) :
    Settled V (ops ++ [op]) cs := by
  refine ⟨hsettled.not_suffixed, fun op' rest h o ho => ?_⟩
  rcases List.mem_append.mp ho with ho | ho
  · exact hsettled.infixed_le op' rest h o ho
  · rw [List.mem_singleton.mp ho]
    exact Nat.le_of_lt_succ (hlooser op' rest h)

/-- Behind a complete expression in a group, only a comma or a closing parenthesis can come
next. -/
theorem not_operator_next {ops : List Operator} {cs : List Char} (hsettled : Settled V ops cs)
    (hlooser : LooserNext V 0 cs) :
    operatorAt? V cs = none ∨ (∃ rest, operatorAt? V cs = some (.comma, rest)) ∨
      ∃ rest, operatorAt? V cs = some (.closeGroup, rest) := by
  rcases h : operatorAt? V cs with _ | ⟨token, rest⟩
  · exact Or.inl rfl
  · cases token with
    | closeGroup => exact Or.inr (Or.inr ⟨rest, rfl⟩)
    | comma => exact Or.inr (Or.inl ⟨rest, rfl⟩)
    | infixed op => exact absurd (hlooser op rest h) (Nat.not_lt_zero _)
    | suffixed op => exact absurd h (hsettled.not_suffixed op rest)

/-! ## Suffix operators -/

theorem postorder_apply_one (op : Operator) (t : Tree) :
    (Tree.apply op [t]).postorder.reverse = .apply op :: t.postorder.reverse := by
  simp [Tree.postorder, Tree.postorderAll]

theorem postorder_apply_two (op : Operator) (l r : Tree) :
    (Tree.apply op [l, r]).postorder.reverse =
      .apply op :: (r.postorder.reverse ++ l.postorder.reverse) := by
  simp [Tree.postorder, Tree.postorderAll]

/-- Suffix operators go straight to the code, and behind the last one everything is settled. -/
theorem suffixes_agree (t : Tree) (cs : List Char) (offset : Nat) (out : List Instruction)
    (pending : List Pending) :
    (∃ offset', code? V offset cs ⟨t.postorder.reverse ++ out, pending, false⟩ =
      code? V offset' (suffixes V t cs).2.1
        ⟨(suffixes V t cs).1.postorder.reverse ++ out, pending, false⟩) ∧
      Settled V [] (suffixes V t cs).2.1 := by
  fun_induction suffixes V t cs generalizing offset with
  | case1 t cs op rest h t' rest' heq ih =>
    obtain ⟨offset₁, hcode⟩ := code?_suffixed h offset (t.postorder.reverse ++ out) pending
    have hrest := ih offset₁
    rw [heq, postorder_apply_one, List.cons_append] at hrest
    rw [hcode]
    exact hrest
  | case2 t cs hnot =>
    exact ⟨⟨offset, rfl⟩, fun op rest h => hnot op rest h, fun _ _ _ o ho => by cases ho⟩

/-! ## Agreement -/

/-- What becomes of a scan agrees with a result of the parser: nothing if it has none, otherwise
what becomes of the scan behind the tree. There, operators may wait on top of the stack, and
`next` holds of them and the rest of the text. -/
def Reaches (V : Vocabulary) (next : List Operator → List Char → Prop) (pending : List Pending)
    (out : List Instruction) (code : Option (List Instruction)) {p : List Char → Prop} :
    Option (Tree × {rest : List Char // p rest}) → Prop
  | none => code = none
  | some (t, rest) => ∃ offset out' ops,
    code = code? V offset rest.1 ⟨out', waiting ops pending, false⟩ ∧
      emit ops out' = t.postorder.reverse ++ out ∧ next ops rest.1

def OperandAgrees (V : Vocabulary) (cs : List Char) : Prop :=
  ∀ offset out pending,
    Reaches V (Settled V) pending out (code? V offset cs ⟨out, pending, true⟩) (operand? V cs)

def ExpressionAgrees (V : Vocabulary) (cs : List Char) : Prop :=
  ∀ m offset out pending, TopBelow m pending →
    Reaches V (fun ops rest => Settled V ops rest ∧ LooserNext V m rest) pending out
      (code? V offset cs ⟨out, pending, true⟩) (expression? V m cs)

def ClimbAgrees (V : Vocabulary) (cs : List Char) : Prop :=
  ∀ m left offset out out' pending ops, TopBelow m pending →
    emit ops out' = left.postorder.reverse ++ out → Settled V ops cs →
    Reaches V (fun ops rest => Settled V ops rest ∧ LooserNext V m rest) pending out
      (code? V offset cs ⟨out', waiting ops pending, false⟩) (climb? V m left cs)

def ArgumentsAgree (V : Vocabulary) (cs : List Char) : Prop :=
  ∀ n o commas callee offset out pending, commas + n = groupArity callee →
    match arguments? V n cs with
    | none => code? V offset cs ⟨out, .group o commas callee :: pending, true⟩ = none
    | some (ts, rest) => ∃ offset',
      code? V offset cs ⟨out, .group o commas callee :: pending, true⟩ =
        code? V offset' rest.1
          ⟨(callee.map Instruction.apply).toList ++ ((Tree.postorderAll ts).reverse ++ out),
            pending, false⟩

/-! ## The end of an argument -/

section Group

variable {ops : List Operator} {cs : List Char} (hsettled : Settled V ops cs)
  (hlooser : LooserNext V 0 cs) (offset : Nat) (out : List Instruction) (o commas : Nat)
  (callee : Option Operator) (pending : List Pending)

include hsettled hlooser

/-- Behind its last argument, a group closes or the scan fails. -/
theorem closing_agrees (hcount : commas + 1 = groupArity callee) :
    match closing? V cs with
    | none => code? V offset cs ⟨out, waiting ops (.group o commas callee :: pending), false⟩ = none
    | some rest => ∃ offset',
      code? V offset cs ⟨out, waiting ops (.group o commas callee :: pending), false⟩ =
        code? V offset' rest.1
          ⟨(callee.map Instruction.apply).toList ++ emit ops out, pending, false⟩ := by
  unfold closing?
  obtain h | ⟨rest, h⟩ | ⟨rest, h⟩ := not_operator_next hsettled hlooser
  · rw [h]
    exact code?_none_in_group h offset out ops o commas callee pending
  · rw [h]
    obtain ⟨offset', hcode⟩ := code?_comma h offset out ops o commas callee pending
    have hfull : Overfull ⟨emit ops out, .group o (commas + 1) callee :: pending, true⟩ :=
      ⟨o, commas + 1, callee, List.mem_cons_self, Nat.le_of_eq hcount.symm⟩
    exact hcode.trans (code?_overfull hfull offset')
  · rw [h]
    exact code?_closeGroup h offset out ops o commas callee pending hcount

/-- Behind another argument, a comma comes next or the scan fails. -/
theorem comma_agrees (hcount : commas + 1 ≠ groupArity callee) :
    match comma? V cs with
    | none => code? V offset cs ⟨out, waiting ops (.group o commas callee :: pending), false⟩ = none
    | some rest => ∃ offset',
      code? V offset cs ⟨out, waiting ops (.group o commas callee :: pending), false⟩ =
        code? V offset' rest.1 ⟨emit ops out, .group o (commas + 1) callee :: pending, true⟩ := by
  unfold comma?
  obtain h | ⟨rest, h⟩ | ⟨rest, h⟩ := not_operator_next hsettled hlooser
  · rw [h]
    exact code?_none_in_group h offset out ops o commas callee pending
  · rw [h]
    exact code?_comma h offset out ops o commas callee pending
  · rw [h]
    exact code?_closeGroup_none h offset out ops o commas callee pending hcount

end Group

/-! ## Each reader agrees if those that it calls do -/

theorem expression_agrees {cs : List Char} (hoperand : OperandAgrees V cs)
    (hclimb : ∀ rest : Shorter cs, ClimbAgrees V rest.1) : ExpressionAgrees V cs := by
  intro m offset out pending htop
  have h := hoperand offset out pending
  rw [expression?]
  rcases hread : operand? V cs with _ | ⟨t, rest⟩ <;> rw [hread] at h
  · exact h
  obtain ⟨offset₁, out₁, ops, hcode, hemit, hsettled⟩ := h
  have h₁ := hclimb rest m t offset₁ out out₁ pending ops htop hemit hsettled
  rw [hcode]
  dsimp only [Option.bind_eq_bind, Option.bind_some]
  rcases hread₁ : climb? V m t rest.1 with _ | ⟨t', rest'⟩ <;> rw [hread₁] at h₁
  · exact h₁
  · exact h₁

theorem climb_agrees {cs : List Char} (hexpression : ∀ rest : Shorter cs, ExpressionAgrees V rest.1)
    (hclimb : ∀ rest : Shorter cs, ClimbAgrees V rest.1) : ClimbAgrees V cs := by
  intro m left offset out out' pending ops htop hemit hsettled
  rw [climb?]
  split
  · rename_i op rest h
    split
    · rename_i hm
      obtain ⟨offset₁, hcode₁⟩ := code?_infixed h offset out' (hsettled.infixed_le op rest h)
        (htop.mono hm)
      rw [hcode₁]
      have h₁ := hexpression rest (op.priority + 1) offset₁ (emit ops out')
        (.operator op :: pending) (topBelow_operator op pending)
      rcases hread₁ : expression? V (op.priority + 1) rest.1 with _ | ⟨right, rest₁⟩ <;>
        rw [hread₁] at h₁
      · exact h₁
      obtain ⟨offset₂, out₂, ops₂, hcode₂, hemit₂, hsettled₂, hlooser₂⟩ := h₁
      rw [hcode₂]
      -- the operator now waits below those of its right operand
      have hemit₃ : emit (ops₂ ++ [op]) out₂ =
          (Tree.apply op [left, right]).postorder.reverse ++ out := by
        rw [emit_append, hemit₂, hemit, postorder_apply_two, emit_cons, emit_nil,
          List.cons_append, List.append_assoc]
      have h₂ := hclimb ⟨rest₁.1, Nat.lt_trans rest₁.2 rest.2⟩ m (.apply op [left, right]) offset₂
        out out₂ pending (ops₂ ++ [op]) htop hemit₃ (hsettled₂.concat hlooser₂)
      rw [waiting_append] at h₂
      dsimp only [Option.bind_eq_bind, Option.bind_some]
      rcases hread₂ : climb? V m (.apply op [left, right]) rest₁.1 with _ | ⟨t, rest₂⟩ <;>
        rw [hread₂] at h₂
      · exact h₂
      · exact h₂
    · rename_i hm
      refine ⟨offset, out', ops, rfl, hemit, hsettled, fun op' rest' h' => ?_⟩
      rw [h] at h'
      cases h'
      omega
  · rename_i hnot
    exact ⟨offset, out', ops, rfl, hemit, hsettled, fun op rest h => absurd h (hnot op rest)⟩

theorem arguments_agree {cs : List Char} (hexpression : ExpressionAgrees V cs)
    (harguments : ∀ rest : Shorter cs, ArgumentsAgree V rest.1) : ArgumentsAgree V cs := by
  intro n o commas callee offset out pending hcount
  have htop := topBelow_group 0 o commas callee pending
  have h := hexpression 0 offset out (.group o commas callee :: pending) htop
  match n with
  | 0 =>
    rw [arguments?]
    exact code?_overfull ⟨o, commas, callee, List.mem_cons_self, Nat.le_of_eq hcount.symm⟩ offset
  | 1 =>
    rw [arguments?]
    rcases hread : expression? V 0 cs with _ | ⟨t, rest⟩ <;> rw [hread] at h
    · exact h
    obtain ⟨offset₁, out₁, ops, hcode, hemit, hsettled, hlooser⟩ := h
    have h₁ := closing_agrees hsettled hlooser offset₁ out₁ o commas callee pending hcount
    rw [hcode]
    dsimp only [Option.bind_eq_bind, Option.bind_some]
    rcases hread₁ : closing? V rest.1 with _ | rest' <;> rw [hread₁] at h₁
    · exact h₁
    · rw [hemit] at h₁
      simp only [Option.bind_some, Option.pure_def, Tree.postorderAll, List.append_nil]
      exact h₁
  | n + 2 =>
    rw [arguments?]
    rcases hread : expression? V 0 cs with _ | ⟨t, rest⟩ <;> rw [hread] at h
    · exact h
    obtain ⟨offset₁, out₁, ops, hcode, hemit, hsettled, hlooser⟩ := h
    have h₁ := comma_agrees hsettled hlooser offset₁ out₁ o commas callee pending (by omega)
    rw [hcode]
    dsimp only [Option.bind_eq_bind, Option.bind_some]
    rcases hread₁ : comma? V rest.1 with _ | rest' <;> rw [hread₁] at h₁
    · exact h₁
    obtain ⟨offset₂, hcode₂⟩ := h₁
    rw [hcode₂, hemit]
    have h₂ := harguments ⟨rest'.1, Nat.lt_trans rest'.2 rest.2⟩ (n + 1) o (commas + 1) callee
      offset₂ (t.postorder.reverse ++ out) pending (by omega)
    dsimp only [Option.bind_some]
    rcases hread₂ : arguments? V (n + 1) rest'.1 with _ | ⟨ts, rest''⟩ <;> rw [hread₂] at h₂
    · exact h₂
    · simp only [Option.bind_some, Option.pure_def, Tree.postorderAll, List.reverse_append,
        List.append_assoc]
      exact h₂

/-- Behind an operand that is no prefix operator come its suffix operators. -/
theorem reaches_suffixes {code : Option (List Instruction)} {p : List Char → Prop} {t : Tree}
    {cs : List Char} {offset : Nat} {out : List Instruction} {pending : List Pending}
    (hcode : code = code? V offset cs ⟨t.postorder.reverse ++ out, pending, false⟩)
    (hrest : p (suffixes V t cs).2.1) :
    Reaches V (Settled V) pending out code
      (some ((suffixes V t cs).1, (⟨(suffixes V t cs).2.1, hrest⟩ : {rest // p rest}))) := by
  obtain ⟨⟨offset', hcode'⟩, hsettled⟩ := suffixes_agree t cs offset out pending
  exact ⟨offset', _, [], hcode.trans hcode', rfl, hsettled⟩

theorem operand_agrees {cs : List Char}
    (hexpression : ∀ rest : Shorter cs, ExpressionAgrees V rest.1)
    (harguments : ∀ rest : Shorter cs, ArgumentsAgree V rest.1) : OperandAgrees V cs := by
  intro offset out pending
  rw [operand?]
  split
  · rename_i h
    exact code?_operand_none h offset out pending
  · rename_i text rest h
    obtain ⟨first, last, offset', hcode⟩ := code?_operand h offset out pending
    rw [hcode, operand]
    rcases Number.readFloat? text with _ | x
    · rfl
    · exact reaches_suffixes (t := .literal x) rfl _
  · rename_i v rest h
    obtain ⟨first, last, offset', hcode⟩ := code?_operand h offset out pending
    rw [hcode, operand]
    exact reaches_suffixes (t := .load v) rfl _
  · rename_i rest h
    obtain ⟨first, last, offset₁, hcode⟩ := code?_operand h offset out pending
    rw [hcode, operand]
    have h₁ := hexpression rest 0 offset₁ out (.group first 0 none :: pending)
      (topBelow_group 0 first 0 none pending)
    rcases hread : expression? V 0 rest.1 with _ | ⟨t, inner⟩ <;> rw [hread] at h₁
    · exact h₁
    obtain ⟨offset₂, out₂, ops, hcode₂, hemit, hsettled, hlooser⟩ := h₁
    have h₂ := closing_agrees hsettled hlooser offset₂ out₂ first 0 none pending rfl
    rw [hemit, ← hcode₂] at h₂
    dsimp only [Option.bind_eq_bind, Option.bind_some]
    rcases hread₁ : closing? V inner.1 with _ | rest' <;> rw [hread₁] at h₂
    · exact h₂
    · obtain ⟨offset₃, hcode₃⟩ := h₂
      exact reaches_suffixes hcode₃ _
  · rename_i f rest h
    obtain ⟨first, last, offset₁, hcode⟩ := code?_operand h offset out pending
    rw [hcode, operand]
    have h₁ := harguments rest f.arity (last - 1) 0 (some f) offset₁ out pending (Nat.zero_add _)
    rcases hread : arguments? V f.arity rest.1 with _ | ⟨ts, rest'⟩ <;> rw [hread] at h₁
    · exact h₁
    obtain ⟨offset₂, hcode₂⟩ := h₁
    have htree : ((some f).map Instruction.apply).toList ++
        ((Tree.postorderAll ts).reverse ++ out) = (Tree.apply f ts).postorder.reverse ++ out := by
      rw [Tree.postorder, List.reverse_append]
      rfl
    rw [htree] at hcode₂
    exact reaches_suffixes hcode₂ _
  · rename_i op rest h
    obtain ⟨first, last, offset₁, hcode⟩ := code?_operand h offset out pending
    rw [hcode, operand]
    have h₁ := hexpression rest (op.priority + 1) offset₁ out (.operator op :: pending)
      (topBelow_operator op pending)
    rcases hread : expression? V (op.priority + 1) rest.1 with _ | ⟨t, rest'⟩ <;> rw [hread] at h₁
    · exact h₁
    obtain ⟨offset₂, out₂, ops, hcode₂, hemit, hsettled, hlooser⟩ := h₁
    refine ⟨offset₂, out₂, ops ++ [op], ?_, ?_, hsettled.concat hlooser⟩
    · rw [waiting_append]
      exact hcode₂
    · rw [emit_append, hemit, postorder_apply_one]
      rfl

/-- All readers of the parser agree with the scan, on every text. -/
theorem agrees (V : Vocabulary) (cs : List Char) :
    OperandAgrees V cs ∧ ClimbAgrees V cs ∧ ExpressionAgrees V cs ∧ ArgumentsAgree V cs := by
  induction hlen : cs.length using Nat.strongRecOn generalizing cs with
  | ind n ih =>
    have hshorter : ∀ rest : Shorter cs, OperandAgrees V rest.1 ∧ ClimbAgrees V rest.1 ∧
        ExpressionAgrees V rest.1 ∧ ArgumentsAgree V rest.1 :=
      fun rest => ih _ (hlen ▸ rest.2) rest.1 rfl
    have hexpression : ∀ rest : Shorter cs, ExpressionAgrees V rest.1 :=
      fun rest => (hshorter rest).2.2.1
    have harguments : ∀ rest : Shorter cs, ArgumentsAgree V rest.1 :=
      fun rest => (hshorter rest).2.2.2
    have hclimb : ∀ rest : Shorter cs, ClimbAgrees V rest.1 := fun rest => (hshorter rest).2.1
    have h₀ := operand_agrees hexpression harguments
    have h₁ := expression_agrees h₀ hclimb
    exact ⟨h₀, climb_agrees hexpression hclimb, h₁, arguments_agree h₁ harguments⟩

/-! ## Whole texts -/

/-- Where the parser has read one expression, the scan ends well only at the end of the text. -/
theorem code?_top {ops : List Operator} {cs : List Char} (hsettled : Settled V ops cs)
    (hlooser : LooserNext V 0 cs) (offset : Nat) (out : List Instruction) :
    code? V offset cs ⟨out, waiting ops [], false⟩ =
      if Text.dropBlanks cs = [] then some (emit ops out) else none := by
  split
  · rename_i hblank
    rw [code?_blank hblank, finish, if_neg Bool.false_ne_true, drain_waiting]
    rfl
  · rename_i hne
    obtain h | ⟨rest, h⟩ | ⟨rest, h⟩ := not_operator_next hsettled hlooser
    · exact code?_operator_none h hne offset out _
    · obtain ⟨here, offset', hcode⟩ := code?_operator h offset out (waiting ops [])
      rw [hcode, operator, flush_waiting]
      rfl
    · obtain ⟨here, offset', hcode⟩ := code?_operator h offset out (waiting ops [])
      rw [hcode, operator, flush_waiting]
      rfl

theorem code?_eq_parse? (V : Vocabulary) (start : Nat) (text : List Char) :
    Scan.start.code? V start text = (parse? V text).map fun t => t.postorder.reverse := by
  have h := (agrees V text).2.2.1 0 start [] [] (topBelow_nil 0)
  rw [parse?, Scan.start]
  rcases hread : expression? V 0 text with _ | ⟨t, rest⟩ <;> rw [hread] at h
  · exact h
  obtain ⟨offset, out, ops, hcode, hemit, hsettled, hlooser⟩ := h
  rw [hcode, code?_top hsettled hlooser, hemit, List.append_nil]
  dsimp only [Option.bind_eq_bind, Option.bind_some]
  split <;> rfl

/-- Compiling a text succeeds exactly when precedence climbing reads all of it as one expression,
and the program lists the instructions of its tree in postorder. -/
theorem compile_agrees_with_climbing (V : Vocabulary) (text : List Char) :
    (compile V text).toOption = (parse? V text).map fun t => ⟨t.postorder⟩ := by
  rw [compile_toOption, code?_eq_parse?, Option.map_map]
  refine congrFun (congrArg Option.map (funext fun t => ?_)) _
  rw [Function.comp_apply, List.reverse_reverse]

end ImplicitPlot.Expression

import ImplicitPlot.Proofs.Expression.Places
import ImplicitPlot.Proofs.Relation.Splitting
import ImplicitPlot.Relation.Diagnostic

/-
  The caret of a diagnostic. The errors of a relation's sides count from the start of the whole
  text, so their offsets are where characters of that text start, or its end
  (`exists_front_of_side`). The column of such an offset is the number of characters in front
  (`column_byteLength`), and the caret stands below the character that is reported
  (`diagnostic_points_at_error`).
-/
namespace ImplicitPlot.Relation

open Symbols Expression

/-- The caret's column counts the characters in front of an offset between two characters. -/
theorem column_byteLength (front rest : List Char) :
    column (front ++ rest) (Text.byteLength front) = front.length := by
  have hmin : min (Text.byteLength front) (Text.byteLength (front ++ rest)) =
      Text.byteLength front := by
    rw [Text.byteLength_append]
    exact Nat.min_eq_left (Nat.le_add_right _ _)
  unfold column
  rw [hmin]
  dsimp only
  rw [Text.dropBytes?_append]
  dsimp only
  rw [List.length_append, Nat.add_sub_cancel_right]

/-- An error of a part of a text, counted from the start of the text. -/
theorem exists_front_of_side {V : Vocabulary} (hV : V.Spelled) {side : List Char} {e : SyntaxError}
    (h : Expression.compile V side = .error e) (before behind : List Char) :
    ∃ front rest, before ++ side ++ behind = front ++ rest ∧
      e.offset + Text.byteLength before = Text.byteLength front ∧
      ∀ o c, e = .unexpected o c → rest.head? = some c := by
  have hlocates := locates_of_compile_error hV h
  cases e with
  | unexpected offset found =>
    obtain ⟨⟨front, rest, rfl, hoffset⟩, -⟩ := hlocates
    refine ⟨before ++ front, found :: rest ++ behind, by simp only [List.append_assoc], ?_, ?_⟩
    · rw [Text.byteLength_append, Nat.add_comm]
      exact congrArg _ hoffset
    · rintro o c ⟨⟩
      rfl
  | _ =>
    obtain ⟨front, rest, rfl, hoffset⟩ := hlocates.exists_eq_append
    refine ⟨before ++ front, rest ++ behind, by simp only [List.append_assoc], ?_, nofun⟩
    rw [Text.byteLength_append, Nat.add_comm]
    exact congrArg _ hoffset

/-- What is wrong with a text: it has no comparison, or one of its sides is wrong. -/
theorem error_cases {V : Vocabulary} {text : String} {e : Error}
    (h : ofText? V text = .error e) :
    e = .noComparison (Text.byteLength text.toList) ∨
    ∃ s : Sides, s.Splits text.toList ∧ ∃ e',
      (Expression.compile V s.left = .error e' ∧ e = .left e' ∨
        Expression.compile V s.right = .error e' ∧
          e = .right (e'.shift (Text.byteLength (s.left ++ s.comparison.symbol.toList)))) := by
  by_cases hcomparison : HasComparison text.toList
  · obtain ⟨s, hsplit, hleftError, hrightError⟩ := ofText?_of_error (V := V) hcomparison
    refine Or.inr ⟨s, hsplit, ?_⟩
    rcases hleft : Expression.compile V s.left with e' | p
    · rw [hleftError e' hleft] at h
      cases h
      exact ⟨e', Or.inl ⟨rfl, rfl⟩⟩
    rcases hright : Expression.compile V s.right with e' | q
    · rw [hrightError p e' hleft hright] at h
      cases h
      exact ⟨e', Or.inr ⟨rfl, rfl⟩⟩
    · rw [ofText?_eq_ok_iff.mpr ⟨s, p, q, hsplit, hleft, hright, rfl⟩] at h
      cases h
  · rw [ofText?_of_build_error (build_of_no_comparison hcomparison)] at h
    cases h
    exact Or.inl rfl

theorem exists_front_of_error {V : Vocabulary} (hV : V.Spelled) {text : String} {e : Error}
    (h : ofText? V text = .error e) :
    ∃ front rest, text.toList = front ++ rest ∧ e.offset = Text.byteLength front ∧
      ∀ o c, e = .left (.unexpected o c) ∨ e = .right (.unexpected o c) → rest.head? = some c := by
  rcases error_cases h with rfl | ⟨s, hsplit, e', ⟨hside, rfl⟩ | ⟨hside, rfl⟩⟩
  · refine ⟨text.toList, [], (List.append_nil _).symm, rfl, ?_⟩
    rintro o c (h | h) <;> cases h
  · obtain ⟨front, rest, htext, hoffset, hfound⟩ :=
      exists_front_of_side hV hside [] (s.comparison.symbol.toList ++ s.right)
    rw [List.nil_append, ← List.append_assoc, ← hsplit.text_eq] at htext
    refine ⟨front, rest, htext, hoffset, ?_⟩
    rintro o c (h | h)
    · cases h
      exact hfound o c rfl
    · cases h
  · obtain ⟨front, rest, htext, hoffset, hfound⟩ :=
      exists_front_of_side hV hside (s.left ++ s.comparison.symbol.toList) []
    rw [List.append_nil, ← hsplit.text_eq] at htext
    refine ⟨front, rest, htext, (SyntaxError.offset_shift _ e').trans hoffset, ?_⟩
    rintro o c (h | h)
    · cases h
    · cases e' <;> cases h
      exact hfound _ c rfl

/-- The offset of a relation's error is where a character of the whole text starts, or its end, so
the caret's column is the number of characters in front. Where a character is reported, on either
side, the caret stands below it. -/
theorem diagnostic_points_at_error {V : Vocabulary} (hV : V.Reachable) {text : String} {e : Error}
    (h : ofText? V text = .error e) :
    ∃ front rest, text.toList = front ++ rest ∧ e.offset = Text.byteLength front ∧
      e.offset ≤ Text.byteLength text.toList ∧
      Text.dropBytes? (min e.offset (Text.byteLength text.toList)) text.toList = some rest ∧
      e.diagnostic text = e.message ++ "\n  " ++ text ++ "\n  " ++
        String.ofList (List.replicate front.length ' ') ++ "^" ∧
      ∀ o c, e = .left (.unexpected o c) ∨ e = .right (.unexpected o c) →
        text.toList[front.length]? = some c := by
  obtain ⟨front, rest, htext, hoffset, hfound⟩ := exists_front_of_error hV.spelled h
  have hle : e.offset ≤ Text.byteLength text.toList := by
    rw [hoffset, htext, Text.byteLength_append]
    exact Nat.le_add_right _ _
  refine ⟨front, rest, htext, hoffset, hle, ?_, ?_, fun o c hc => ?_⟩
  · rw [Nat.min_eq_left hle, hoffset, htext, Text.dropBytes?_append]
  · unfold Error.diagnostic
    rw [hoffset, htext, column_byteLength]
  · rw [htext, List.getElem?_append_right (Nat.le_refl _), Nat.sub_self, ← List.head?_eq_getElem?]
    exact hfound o c hc

/-- A character on the right side, behind a no-break space, which takes two bytes but one column. -/
theorem diagnostic_points_at_error_behind_space :
    ∃ V : Vocabulary, V.Reachable ∧
      ofText? V "x\u00a0= $" = .error (.right (.unexpected 5 '$')) ∧
      ∃ front rest, "x\u00a0= $".toList = front ++ rest ∧ 5 = Text.byteLength front ∧
        5 ≤ Text.byteLength "x\u00a0= $".toList ∧
        Text.dropBytes? (min 5 (Text.byteLength "x\u00a0= $".toList)) "x\u00a0= $".toList =
          some rest ∧
        Error.diagnostic (.right (.unexpected 5 '$')) "x\u00a0= $" =
          Error.message (.right (.unexpected 5 '$')) ++ "\n  " ++ "x\u00a0= $" ++ "\n  " ++
            "    " ++ "^" ∧
        "x\u00a0= $".toList[4]? = some '$' := by
  let x : Variable := ⟨"x", .free, 0⟩
  let V : Vocabulary := { Vocabulary.empty with vars := ⟨.node 'x' (some x) .nil .nil, 1⟩ }
  have hx : Vocabulary.empty.addVariable .empty "x" .free 0.0 =
      .ok (x, V, Store.empty.push 0.0) := rfl
  have hV : V.Reachable := Vocabulary.Reachable.empty.addVariable hx
  have hleft : Expression.compile V ['x', '\u00a0'] = .ok ⟨[.load x]⟩ := by
    have hrun : Scan.start.run V 0 ['x', '\u00a0'] =
        Scan.run V 1 ['\u00a0'] ⟨[.load x], [], false⟩ :=
      Scan.run_operand 'x' [] ['\u00a0'] rfl rfl rfl rfl
    exact compile_eq_ok_iff.mpr ⟨[], _, hrun.trans (Scan.run_blank rfl _ _), rfl⟩
  have hright : Expression.compile V [' ', '$'] = .error (.unexpected 1 '$') := by
    have hbs : ∀ b ∈ [' '], Text.isBlank b = true := List.forall_mem_singleton.mpr rfl
    have hblank : Scan.start.run V 0 [' ', '$'] = Scan.start.run V 1 ['$'] :=
      Scan.run_blanks_append hbs 0 _ _
    unfold Expression.compile
    rw [hblank, Scan.run_cons rfl]
    rfl
  have herror : ofText? V "x\u00a0= $" = .error (.right (.unexpected 5 '$')) := by
    have hsides : Sides.ofText? "x\u00a0= $".toList =
        some ⟨['x', '\u00a0'], .equal, [' ', '$']⟩ := rfl
    exact ofText?_of_build_error (build_of_right_error hsides hleft hright)
  obtain ⟨front, rest, htext, hoffset, hle, hdrop, hcaret, hfound⟩ :=
    diagnostic_points_at_error hV herror
  have hrest : rest = ['$'] := (Option.some.inj hdrop).symm
  have hfront : front.length = 4 := by
    have hlength := congrArg List.length htext
    rw [hrest, List.length_append] at hlength
    exact (Nat.succ.inj hlength).symm
  have hshows := hfound 5 '$' (Or.inr rfl)
  rw [hfront] at hshows hcaret
  exact ⟨V, hV, herror, front, rest, htext, hoffset, hle, hdrop, hcaret, hshows⟩

end ImplicitPlot.Relation

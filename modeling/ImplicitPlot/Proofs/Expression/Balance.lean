import ImplicitPlot.Proofs.Symbols.Reachable
import ImplicitPlot.Proofs.Expression.Height
import ImplicitPlot.Proofs.Expression.Steps
import ImplicitPlot.Proofs.Expression.Waiting

/-
  Balance of a scan. The code written so far leaves one value for each left operand that a
  pending operator waits with, one for each finished argument of an open group, and one more
  right behind an operand (`Balanced`). Every step keeps this (`step_balanced`), whatever the
  priorities of the operators are, so a finished scan has one value
  (`heightAfter?_of_compile`).
-/
namespace ImplicitPlot.Expression

open Symbols

/-! ## Tokens suit their place -/

def OperandToken.Suits : OperandToken → Prop
  | .prefixed op => op.Suits .prefixed
  | .call f => f.Suits .called
  | .openGroup | .number _ | .variable _ => True

def OperatorToken.Suits : OperatorToken → Prop
  | .infixed op => op.Suits .infixed
  | .suffixed op => op.Suits .suffixed
  | .closeGroup | .comma => True

theorem call?_suits {V : Vocabulary} (hV : V.OperatorsSuit) {cs : List Char} {t : OperandToken}
    {n : Nat} (h : call? V cs = some (t, n)) : t.Suits := by
  unfold call? at h
  split at h
  · rename_i k f hf
    split at h
    · cases h
      exact hV .called _ (Trie.longest?_mem_entries hf)
    · cases h
  · cases h

theorem operandToken?_suits {V : Vocabulary} (hV : V.OperatorsSuit) {cs : List Char}
    {t : OperandToken} {n : Nat} (h : operandToken? V cs = some (t, n)) : t.Suits := by
  rcases cs with _ | ⟨c, cs⟩
  · cases h
  rw [operandToken?] at h
  split at h
  · cases h; trivial
  split at h
  · cases h; trivial
  rcases hbefore : V.prefixes.longest? (c :: cs) with _ | ⟨k, op⟩
  · rcases hcall : call? V (c :: cs) with _ | ⟨u, k⟩
    · rcases hvar : V.vars.longest? (c :: cs) with _ | ⟨k, v⟩
      · rw [hbefore, hcall, hvar] at h; cases h
      · rw [hbefore, hcall, hvar] at h; cases h; trivial
    · rw [hbefore, hcall] at h
      cases h
      exact call?_suits hV hcall
  · rw [hbefore] at h
    cases h
    exact hV .prefixed _ (Trie.longest?_mem_entries hbefore)

theorem operatorToken?_suits {V : Vocabulary} (hV : V.OperatorsSuit) {cs : List Char}
    {t : OperatorToken} {n : Nat} (h : operatorToken? V cs = some (t, n)) : t.Suits := by
  rcases cs with _ | ⟨c, cs⟩
  · cases h
  rw [operatorToken?] at h
  split at h
  · cases h; trivial
  split at h
  · cases h; trivial
  rcases hbetween : V.infixes.longest? (c :: cs) with _ | ⟨k, op⟩
  · rcases hbehind : V.suffixes.longest? (c :: cs) with _ | ⟨k, op⟩
    · rw [hbetween, hbehind] at h; cases h
    · rw [hbetween, hbehind] at h
      cases h
      exact hV .suffixed _ (Trie.longest?_mem_entries hbehind)
  · rw [hbetween] at h
    cases h
    exact hV .infixed _ (Trie.longest?_mem_entries hbetween)

namespace Scan

/-! ## The invariant -/

/-- The values that the pending entries of a scan wait with. -/
def owed : List Pending → Nat
  | [] => 0
  | .operator op :: pending => op.arity - 1 + owed pending
  | .group _ commas _ :: pending => commas + owed pending

/-- The code of a scan leaves the values that its stack needs, and every pending operator takes
some. -/
structure Balanced (s : Scan) : Prop where
  height : heightAfter? s.out.reverse 0 =
    some (owed s.pending + if s.needsOperand then 0 else 1)
  arity_pos : ∀ op, .operator op ∈ s.pending → 0 < op.arity

theorem balanced_start : start.Balanced := ⟨rfl, fun _ h => by cases h⟩

/-- Writing out waiting operators turns their operands into one value. -/
theorem height_emit {ops : List Operator} (hops : ∀ op ∈ ops, 0 < op.arity)
    {pending : List Pending} {out : List Instruction}
    (h : heightAfter? out.reverse 0 = some (owed (waiting ops pending) + 1)) :
    heightAfter? (emit ops out).reverse 0 = some (owed pending + 1) := by
  induction ops generalizing out with
  | nil => exact h
  | cons op ops ih =>
    have hop := hops op List.mem_cons_self
    refine ih (fun o ho => hops o (List.mem_cons_of_mem op ho)) ?_
    rw [waiting_cons, owed] at h
    rw [List.reverse_cons, heightAfter?_concat, h, Option.bind_some,
      depthAfter?_apply (by omega), Option.some.injEq]
    omega

/-- Behind an operand, waiting operators can be written out. -/
theorem Balanced.emit {ops : List Operator} {pending : List Pending} {out : List Instruction}
    (h : (⟨out, waiting ops pending, false⟩ : Scan).Balanced) :
    heightAfter? (emit ops out).reverse 0 = some (owed pending + 1) ∧
      ∀ op, .operator op ∈ pending → 0 < op.arity := by
  have hops : ∀ op ∈ ops, 0 < op.arity := fun op hop =>
    h.arity_pos op (List.mem_append_left _ (List.mem_map_of_mem hop))
  exact ⟨height_emit hops h.height, fun op hop => h.arity_pos op (List.mem_append_right _ hop)⟩

/-! ## Steps -/

/-- A value written for an operand. -/
theorem Balanced.value {out : List Instruction} {pending : List Pending}
    (h : (⟨out, pending, true⟩ : Scan).Balanced) {i : Instruction}
    (hi : i.depthAfter? (owed pending) = some (owed pending + 1)) :
    (⟨i :: out, pending, false⟩ : Scan).Balanced := by
  refine ⟨?_, h.arity_pos⟩
  rw [List.reverse_cons, heightAfter?_concat, h.height]
  exact hi

/-- A group opened for an operand. -/
theorem Balanced.group {out : List Instruction} {pending : List Pending}
    (h : (⟨out, pending, true⟩ : Scan).Balanced) (offset : Nat) (callee : Option Operator) :
    (⟨out, .group offset 0 callee :: pending, true⟩ : Scan).Balanced := by
  refine ⟨?_, fun op hop => h.arity_pos op (by simpa using hop)⟩
  rw [h.height, owed, Nat.zero_add]

theorem mem_operator_cons {op o : Operator} {pending : List Pending}
    (h : .operator o ∈ .operator op :: pending) : o = op ∨ .operator o ∈ pending := by
  rcases List.mem_cons.mp h with h | h
  · exact Or.inl (Pending.operator.inj h)
  · exact Or.inr h

theorem operand_balanced {s s' : Scan} (hs : s.Balanced) (hneeds : s.needsOperand = true)
    {token : OperandToken} (htoken : token.Suits) (h : OperandStep s token s') : s'.Balanced := by
  obtain ⟨out, pending, needs⟩ := s
  subst hneeds
  cases h with
  | number text x => exact hs.value rfl
  | load v => exact hs.value rfl
  | openGroup offset => exact hs.group offset none
  | call offset f => exact hs.group offset (some f)
  | prefixed op =>
    have hone : op.arity = 1 := htoken.2
    refine ⟨?_, fun o ho => ?_⟩
    · rw [hs.height, owed, hone, Nat.sub_self, Nat.zero_add]
    · rcases mem_operator_cons ho with rfl | ho
      · omega
      · exact hs.arity_pos o ho

theorem operator_balanced {out : List Instruction} {ops : List Operator} {pending : List Pending}
    {s' : Scan} (hs : (⟨out, waiting ops pending, false⟩ : Scan).Balanced) {token : OperatorToken}
    (htoken : token.Suits) (h : OperatorStep out false ops pending token s') : s'.Balanced := by
  cases h with
  | suffixed _ op =>
    have hone : op.arity = 1 := htoken.2
    refine ⟨?_, hs.arity_pos⟩
    rw [List.reverse_cons, heightAfter?_concat, hs.height, Option.bind_some,
      depthAfter?_apply (by rw [hone]; exact Nat.le_add_left _ _), hone]
    rfl
  | infixed _ op =>
    have htwo : op.arity = 2 := htoken.2
    obtain ⟨hheight, harity⟩ := hs.emit
    refine ⟨?_, fun o ho => ?_⟩
    · rw [hheight, owed, htwo, if_pos rfl, Option.some.injEq]
      omega
    · rcases mem_operator_cons ho with rfl | ho
      · omega
      · exact harity o ho
  | comma pending o commas callee =>
    obtain ⟨hheight, harity⟩ := hs.emit
    refine ⟨?_, fun op hop => harity op (by simpa using hop)⟩
    rw [hheight, owed, owed, if_pos rfl, Option.some.injEq]
    omega
  | closeGroup pending o commas callee hcount =>
    obtain ⟨hheight, harity⟩ := hs.emit
    refine ⟨?_, fun op hop => harity op (List.mem_cons_of_mem _ hop)⟩
    rw [owed] at hheight
    cases callee with
    | none =>
      obtain rfl : commas = 0 := Nat.succ.inj hcount
      rw [Nat.zero_add] at hheight
      exact hheight
    | some f =>
      have harity' : f.arity = commas + 1 := hcount.symm
      simp only [Option.map_some, Option.toList_some, List.singleton_append, List.reverse_cons]
      rw [heightAfter?_concat, hheight, Option.bind_some, if_neg Bool.false_ne_true,
        depthAfter?_apply (by omega), Option.some.injEq]
      omega

theorem step_balanced {V : Vocabulary} (hV : V.OperatorsSuit) {offset n : Nat} {c : Char}
    {cs : List Char} {s s' : Scan} (hs : s.Balanced) (h : s.step V offset c cs = .ok (n, s')) :
    s'.Balanced := by
  obtain ⟨hneeds, token, htoken, hs'⟩ | ⟨hneeds, token, htoken, hs'⟩ := step_cases h
  · exact operand_balanced hs hneeds (operandToken?_suits hV htoken) (operandStep hs')
  · obtain ⟨out, pending, needs⟩ := s
    subst hneeds
    obtain ⟨ops, rest, rfl, hop⟩ := operatorStep hs'
    exact operator_balanced hs (operatorToken?_suits hV htoken) hop

theorem run_balanced {V : Vocabulary} (hV : V.OperatorsSuit) {offset : Nat} {cs : List Char}
    {s s' : Scan} (hs : s.Balanced) (h : s.run V offset cs = .ok s') : s'.Balanced :=
  run_preserves (fun _ _ _ _ _ _ ht hstep => step_balanced hV ht hstep) hs h

theorem finish_height {s : Scan} (hs : s.Balanced) {length : Nat} {out : List Instruction}
    (h : s.finish length = .ok out) : heightAfter? out.reverse 0 = some 1 := by
  obtain ⟨out', pending, needs⟩ := s
  rw [finish] at h
  split at h
  · cases h
  · rename_i hneeds
    have hfalse : needs = false := Bool.eq_false_iff.mpr hneeds
    subst hfalse
    obtain ⟨ops, rfl, rfl⟩ := exists_drain h
    exact hs.emit.1

end Scan

/-- The program of an expression leaves one value. -/
theorem heightAfter?_of_compile {V : Vocabulary} (hV : V.OperatorsSuit) {text : List Char}
    {p : Program} (h : compile V text = .ok p) : heightAfter? p.code 0 = some 1 := by
  unfold compile at h
  cases hrun : Scan.start.run V 0 text with
  | error e => rw [hrun] at h; cases h
  | ok s =>
    cases hout : s.finish (Text.byteLength text) with
    | error e => rw [hrun] at h; simp only [bind, Except.bind, hout] at h; cases h
    | ok out =>
      rw [hrun] at h
      simp only [bind, Except.bind, hout] at h
      cases h
      exact Scan.finish_height (Scan.run_balanced hV Scan.balanced_start hrun) hout

end ImplicitPlot.Expression

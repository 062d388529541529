import ImplicitPlot.Proofs.Expression.Steps
import ImplicitPlot.Proofs.Expression.Written

/-
  Parentheses of a text and groups of a scan. A text is paired if each of its closing parentheses
  has an open one in front and none is left open; behind an open parenthesis, a text closes it if
  some front part holds more closing parentheses than open ones.

  The groups on the stack of a scan are the parentheses that are still open in the text that has
  been read, the innermost first, each at its offset (`Opens`). Every step keeps this, as only the
  tokens of groups are written with parentheses (`step_opens`).
-/
namespace ImplicitPlot.Expression

open Symbols

/-! ## Texts -/

/-- Parentheses that belong together: none is closed before it is opened, none is left open. -/
structure Paired (text : List Char) : Prop where
  bounded : ∀ front, front <+: text → front.count ')' ≤ front.count '('
  total : text.count ')' = text.count '('

/-- An open parenthesis in front of the text is closed in it. -/
def Closes (text : List Char) : Prop :=
  ∃ front, front <+: text ∧ front.count '(' < front.count ')'

theorem paired_of_plain {text : List Char} (hopen : '(' ∉ text) (hclose : ')' ∉ text) :
    Paired text := by
  refine ⟨fun front hfront => ?_, ?_⟩
  · rw [List.count_eq_zero_of_not_mem fun hmem => hclose (hfront.mem hmem)]
    exact Nat.zero_le _
  · rw [List.count_eq_zero_of_not_mem hopen, List.count_eq_zero_of_not_mem hclose]

theorem paired_nil : Paired [] := paired_of_plain List.not_mem_nil List.not_mem_nil

theorem paired_of_blank {text : List Char} (h : ∀ b ∈ text, Text.isBlank b = true) :
    Paired text := by
  refine paired_of_plain (fun hmem => ?_) fun hmem => ?_ <;>
    exact absurd (h _ hmem) (by decide)

theorem Paired.append {as bs : List Char} (ha : Paired as) (hb : Paired bs) :
    Paired (as ++ bs) := by
  refine ⟨fun front hfront => ?_, ?_⟩
  · rcases List.prefix_or_prefix_of_prefix hfront (List.prefix_append as bs) with
      hinside | ⟨mid, rfl⟩
    · exact ha.bounded front hinside
    · have hmid := hb.bounded mid ((List.prefix_append_right_inj as).mp hfront)
      have htotal := ha.total
      rw [List.count_append, List.count_append]
      omega
  · rw [List.count_append, List.count_append, ha.total, hb.total]

theorem Paired.parentheses {text : List Char} (h : Paired text) :
    Paired ('(' :: text ++ [')']) := by
  have htotal := h.total
  have hbounded : ∀ front, front <+: text ++ [')'] → front.count ')' ≤ front.count '(' + 1 := by
    intro front hfront
    rcases List.prefix_concat_iff.mp hfront with rfl | hinside
    · simp only [List.count_append, List.count_singleton, beq_self_eq_true, if_true]
      omega
    · exact Nat.le_succ_of_le (h.bounded front hinside)
  refine ⟨fun front hfront => ?_, ?_⟩
  · rcases List.prefix_cons_iff.mp hfront with rfl | ⟨rest, rfl, hrest⟩
    · exact Nat.le_refl _
    · have hle := hbounded rest hrest
      rw [List.count_cons_self, List.count_cons_of_ne (by decide)]
      exact hle
  · simp [List.count_append, htotal]

theorem Paired.not_closes {text : List Char} (h : Paired text) : ¬Closes text := by
  rintro ⟨front, hfront, hlt⟩
  exact absurd (h.bounded front hfront) (Nat.not_le.mpr hlt)

/-- Every open parenthesis of a paired text is closed. -/
theorem Paired.closes {text front rest : List Char} (h : Paired text)
    (htext : text = front ++ '(' :: rest) : Closes rest := by
  have hfront := h.bounded front (htext ▸ List.prefix_append front _)
  have htotal := h.total
  rw [htext, List.count_append, List.count_append, List.count_cons_self,
    List.count_cons_of_ne (by decide)] at htotal
  exact ⟨rest, List.prefix_refl rest, by omega⟩

/-- Where a paired text behind a parenthesis or comma ends a text, and so does one behind an open
parenthesis, the first of them is the second or its part behind a comma. -/
theorem Paired.eq_or_behind_comma {front rest before argument : List Char} {d : Char}
    (hrest : Paired rest) (hargument : Paired argument) (hd : d = '(' ∨ d = ',')
    (h : front ++ '(' :: rest = before ++ d :: argument) :
    rest = argument ∨ ∃ front, rest = front ++ ',' :: argument := by
  rcases List.append_eq_append_iff.mp h with ⟨mid, -, hmid⟩ | ⟨mid, -, hmid⟩ <;>
    rcases mid with _ | ⟨e, mid⟩
  · exact Or.inl (List.cons.inj hmid).2
  · obtain ⟨-, hsplit⟩ := List.cons.inj hmid
    rcases hd with rfl | rfl
    · exact absurd (hrest.closes hsplit) hargument.not_closes
    · exact Or.inr ⟨mid, hsplit⟩
  · exact Or.inl (List.cons.inj hmid).2.symm
  · obtain ⟨-, hsplit⟩ := List.cons.inj hmid
    exact absurd (hargument.closes hsplit) hrest.not_closes

/-! ## Texts with open parentheses -/

/-- A text and the offsets of the parentheses that are open at its end, the innermost first. -/
inductive Opens : List Char → List Nat → Prop where
  | paired {text : List Char} (h : Paired text) : Opens text []
  | opened {front rest : List Char} {offsets : List Nat} (hfront : Opens front offsets)
      (hrest : Paired rest) : Opens (front ++ '(' :: rest) (Text.byteLength front :: offsets)

theorem Opens.append {text more : List Char} {offsets : List Nat} (h : Opens text offsets)
    (hmore : Paired more) : Opens (text ++ more) offsets := by
  cases h with
  | paired h => exact .paired (h.append hmore)
  | opened hfront hrest =>
    rw [List.append_assoc, List.cons_append]
    exact .opened hfront (hrest.append hmore)

theorem Opens.push {text : List Char} {offsets : List Nat} (h : Opens text offsets) :
    Opens (text ++ ['(']) (Text.byteLength text :: offsets) :=
  .opened h paired_nil

theorem Opens.pop {text : List Char} {offset : Nat} {offsets : List Nat}
    (h : Opens text (offset :: offsets)) : Opens (text ++ [')']) offsets := by
  cases h with
  | opened hfront hrest =>
    rw [List.append_assoc]
    exact hfront.append hrest.parentheses

theorem Opens.of_nil {text : List Char} (h : Opens text []) : Paired text := by
  cases h with
  | paired h => exact h

/-! ## Groups of a scan -/

namespace Scan

/-- The offsets of the open groups, the innermost first. -/
def groupOffsets : List Pending → List Nat
  | [] => []
  | .operator _ :: pending => groupOffsets pending
  | .group offset _ _ :: pending => offset :: groupOffsets pending

theorem groupOffsets_waiting (ops : List Operator) (pending : List Pending) :
    groupOffsets (waiting ops pending) = groupOffsets pending := by
  induction ops with
  | nil => rfl
  | cons op ops ih => exact ih

/-- No token but those of groups is written with parentheses. -/
theorem paired_name {table : Table} {name : List Char} (h : table.Spells name) : Paired name :=
  paired_of_plain (h.not_mem rfl) (h.not_mem rfl)

variable {V : Vocabulary} (hV : V.Spelled)

include hV

theorem operand_opens {s s' : Scan} {read word : List Char} {token : OperandToken}
    (hwrites : token.Writes V word) (hread : Opens read (groupOffsets s.pending))
    (h : s.operand (Text.byteLength read) (Text.byteLength read + Text.byteLength word) token =
      .ok s') : Opens (read ++ word) (groupOffsets s'.pending) := by
  cases hwrites with
  | openGroup =>
    cases h
    exact hread.push
  | number hnumeral =>
    have hplain := paired_of_plain (hnumeral.not_mem rfl) (hnumeral.not_mem rfl)
    rw [operand] at h
    split at h
    · cases h
      exact hread.append hplain
    · cases h
  | prefixed hop =>
    cases h
    exact hread.append (paired_name (hV.operators .prefixed hop))
  | @call f name hf =>
    cases h
    have hoffset : Text.byteLength read + Text.byteLength (name ++ ['(']) - 1 =
        Text.byteLength (read ++ name) := by
      simp only [Text.byteLength_append, Text.byteLength_cons, Text.byteLength_nil,
        show '('.utf8Size = 1 from rfl]
      omega
    rw [← List.append_assoc]
    simp only [groupOffsets, hoffset]
    exact (hread.append (paired_name (hV.operators .called hf))).push
  | «variable» hv =>
    cases h
    exact hread.append (paired_name (hV.vars hv))

theorem operator_opens {s s' : Scan} {read word : List Char} {offset : Nat} {token : OperatorToken}
    (hwrites : token.Writes V word) (hread : Opens read (groupOffsets s.pending))
    (h : s.operator offset token = .ok s') : Opens (read ++ word) (groupOffsets s'.pending) := by
  obtain ⟨ops, rest, hpending, hstep⟩ := operatorStep h
  rw [hpending, groupOffsets_waiting] at hread
  cases hstep with
  | suffixed =>
    cases hwrites with
    | suffixed hop =>
      rw [groupOffsets_waiting]
      exact hread.append (paired_name (hV.operators .suffixed hop))
  | infixed =>
    cases hwrites with
    | infixed hop => exact hread.append (paired_name (hV.operators .infixed hop))
  | comma =>
    cases hwrites with
    | comma => exact hread.append (paired_of_plain (by decide) (by decide))
  | closeGroup =>
    cases hwrites with
    | closeGroup => exact hread.pop

/-- The groups of a scan stay the open parentheses of what it has read. -/
theorem step_opens {c : Char} {cs read : List Char} {s s' : Scan} {n : Nat}
    (hread : Opens read (groupOffsets s.pending))
    (h : s.step V (Text.byteLength read) c cs = .ok (n, s')) :
    Opens (read ++ (c :: cs).take n) (groupOffsets s'.pending) := by
  obtain ⟨-, token, htoken, hs'⟩ | ⟨-, token, htoken, hs'⟩ := step_cases h
  · exact operand_opens hV (operandToken?_writes htoken).2 hread hs'
  · exact operator_opens hV (operatorToken?_writes htoken).2 hread hs'

end Scan

end ImplicitPlot.Expression

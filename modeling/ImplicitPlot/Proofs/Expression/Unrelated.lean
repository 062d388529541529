import ImplicitPlot.Proofs.Expression.Steps
import ImplicitPlot.Proofs.Symbols.Spelling

/-
  Names that do not occur in a text. A scan looks up nothing but parts of its text, so vocabularies
  that give every part of a text the same meaning compile it to the same program, or refuse it for
  the same reason at the same place (`compile_congr`). Registering or dropping a name changes the
  meaning of that name alone, so a text in which it does not occur is read as before
  (`compile_ignores_unrelated`). The tries do change: they share branches among their names.
-/
namespace ImplicitPlot

open Symbols

/-! ## Vocabularies that agree on a text -/

namespace Symbols.Vocabulary

/-- Two vocabularies give every part of a text the same meaning in every table. -/
def AgreeOn (V V' : Vocabulary) (text : List Char) : Prop :=
  ∀ table name, name <:+: text → V.find? table name = V'.find? table name

namespace AgreeOn

variable {V V' : Vocabulary} {text : List Char}

theorem of_infix (h : V.AgreeOn V' text) {part : List Char} (hpart : part <:+: text) :
    V.AgreeOn V' part := fun table name hname => h table name (hname.trans hpart)

theorem longest?_vars (h : V.AgreeOn V' text) : V.vars.longest? text = V'.vars.longest? text := by
  refine Trie.longest?_congr fun front hfront => ?_
  have hfind : (V.vars.get? front).map Entry.var = (V'.vars.get? front).map Entry.var :=
    h .vars front hfront.isInfix
  exact Option.map_injective (fun _ _ => Entry.var.inj) hfind

theorem longest?_operators (h : V.AgreeOn V' text) (fixity : Fixity) :
    (V.operators fixity).longest? text = (V'.operators fixity).longest? text := by
  refine Trie.longest?_congr fun front hfront => ?_
  have hfind := h fixity.table front hfront.isInfix
  rw [find?_operators, find?_operators] at hfind
  exact Option.map_injective (fun _ _ => Entry.operator.inj) hfind

end AgreeOn

/-- A new entry makes a difference to texts in which its name occurs. -/
theorem InOrder.agreeOn_put {V : Vocabulary} (hV : V.InOrder) {entry : Entry}
    (hname : entry.name.toList ≠ []) {text : List Char} (h : ¬entry.name.toList <:+: text) :
    (V.put entry).AgreeOn V text := by
  intro table name hinfix
  rw [hV.find?_put hname, if_neg]
  rintro ⟨-, rfl⟩
  exact h hinfix

theorem InOrder.agreeOn_remove {V : Vocabulary} (hV : V.InOrder) {removed text : List Char}
    (h : ¬removed <:+: text) : (V.remove removed).AgreeOn V text := by
  intro table name hinfix
  rw [hV.find?_remove, if_neg]
  rintro ⟨-, rfl⟩
  exact h hinfix

end Symbols.Vocabulary

/-! ## Scans with vocabularies that agree -/

namespace Expression

section Agree

variable {V V' : Vocabulary} {text : List Char} (h : V.AgreeOn V' text)

include h

theorem operandToken?_congr : operandToken? V text = operandToken? V' text := by
  have hprefixes : V.prefixes.longest? text = V'.prefixes.longest? text :=
    h.longest?_operators .prefixed
  have hfunctions : V.functions.longest? text = V'.functions.longest? text :=
    h.longest?_operators .called
  have hcalls : call? V text = call? V' text := by rw [call?, call?, hfunctions]
  cases text with
  | nil => rfl
  | cons c cs => rw [operandToken?, operandToken?, hprefixes, hcalls, h.longest?_vars]

theorem operatorToken?_congr : operatorToken? V text = operatorToken? V' text := by
  have hinfixes : V.infixes.longest? text = V'.infixes.longest? text :=
    h.longest?_operators .infixed
  have hsuffixes : V.suffixes.longest? text = V'.suffixes.longest? text :=
    h.longest?_operators .suffixed
  cases text with
  | nil => rfl
  | cons c cs => rw [operatorToken?, operatorToken?, hinfixes, hsuffixes]

end Agree

theorem Scan.step_congr {V V' : Vocabulary} {c : Char} {cs : List Char}
    (h : V.AgreeOn V' (c :: cs)) (offset : Nat) (s : Scan) :
    s.step V offset c cs = s.step V' offset c cs := by
  rw [step, step, operandToken?_congr h, operatorToken?_congr h]

/-- Each step reads from the rest of the text on, and what is behind a token is a part of it. -/
theorem Scan.run_congr {V V' : Vocabulary} {text : List Char} (h : V.AgreeOn V' text)
    (offset : Nat) (s : Scan) : s.run V' offset text = s.run V offset text := by
  refine run_induction (P := fun offset cs s r => V.AgreeOn V' cs → s.run V' offset cs = r)
    ?_ ?_ ?_ offset text s h
  · intro offset bs s hbs _
    have hblank := run_blanks_append (V := V') hbs offset [] s
    rw [List.append_nil] at hblank
    rw [hblank, run_blank rfl]
  · intro offset bs c cs s e hbs hc hstep hagree
    have hrest := hagree.of_infix (List.suffix_append bs (c :: cs)).isInfix
    rw [run_blanks_append hbs, run_cons hc, ← step_congr hrest, hstep]
  · intro offset bs c cs s n s' r hbs hc hstep ih hagree
    have hrest := hagree.of_infix (List.suffix_append bs (c :: cs)).isInfix
    rw [run_blanks_append hbs, run_cons hc, ← step_congr hrest, hstep]
    exact ih (hrest.of_infix (List.drop_suffix n (c :: cs)).isInfix)

/-- A text means the same to vocabularies that agree on its parts. -/
theorem compile_congr {V V' : Vocabulary} {text : List Char} (h : V.AgreeOn V' text) :
    compile V text = compile V' text := by
  rw [compile, compile, Scan.run_congr h]

/-! ## Names that do not occur -/

/-- Registering a name in any table, or dropping a variable, changes nothing for a text in which
the name does not occur: it compiles to the same program, or fails with the same error. -/
theorem compile_ignores_unrelated {V : Vocabulary} (hV : V.Reachable) (text : List Char) :
    (∀ σ r entry V' σ', V.register σ r = .ok (entry, V', σ') → ¬entry.name.toList <:+: text →
      compile V' text = compile V text) ∧
    (∀ name v V', V.dropVariable? name = some (v, V') → ¬name.toList <:+: text →
      compile V' text = compile V text) := by
  have hinOrder : V.InOrder := hV.legible.inOrder
  constructor
  · intro σ r entry V' σ' hregister habsent
    rw [Vocabulary.register_eq] at hregister
    rcases haccept : V.accept (r.entry σ.cells.size) with e | W
    · rw [haccept] at hregister
      cases hregister
    · rw [haccept] at hregister
      cases hregister
      obtain ⟨rfl, hspells⟩ := Vocabulary.accept_eq_ok haccept
      exact compile_congr (hinOrder.agreeOn_put hspells.ne_nil habsent)
  · intro name v V' hdrop habsent
    rw [Vocabulary.dropVariable?_eq, Option.map_eq_some_iff] at hdrop
    obtain ⟨w, -, hw⟩ := hdrop
    cases hw
    exact compile_congr (hinOrder.agreeOn_remove habsent)

/-- A function whose name goes on where `sin` ends, and a variable whose name goes on where `x`
ends. -/
theorem compile_ignores_unrelated_branches :
    ∃ (V V' V'' : Vocabulary) (sinh : Entry) (xy : Variable) (σ : Store), V.Reachable ∧
      V.register .empty (.called "sinh" 1 fun _ => 0.0) = .ok (sinh, V', σ) ∧
      ¬sinh.name.toList <:+: "sin(x)".toList ∧ V.dropVariable? "xy" = some (xy, V'') ∧
      ¬"xy".toList <:+: "sin(x)".toList ∧
      compile V' "sin(x)".toList = compile V "sin(x)".toList ∧
      compile V'' "sin(x)".toList = compile V "sin(x)".toList := by
  let x : Variable := ⟨"x", .free, 0⟩
  let xy : Variable := ⟨"xy", .free, 1⟩
  let sin : Operator := .called "sin" 1 fun _ => 0.0
  let V₁ : Vocabulary := { Vocabulary.empty with vars := ⟨.node 'x' (some x) .nil .nil, 1⟩ }
  let V₂ : Vocabulary :=
    { V₁ with vars := ⟨.node 'x' (some x) (.node 'y' (some xy) .nil .nil) .nil, 2⟩ }
  let branch : Forest Operator := .node 's' none (.node 'i' none (.node 'n' (some sin) .nil .nil)
    .nil) .nil
  let V : Vocabulary := { V₂ with functions := ⟨branch, 1⟩ }
  have hx : Vocabulary.empty.addVariable .empty "x" .free 0.0 =
      .ok (x, V₁, Store.empty.push 0.0) := rfl
  have hxy : V₁.addVariable (Store.empty.push 0.0) "xy" .free 0.0 =
      .ok (xy, V₂, (Store.empty.push 0.0).push 0.0) := rfl
  have hsin : V₂.addFunction "sin" 1 (fun _ => 0.0) = .ok V :=
    Vocabulary.addOperator_of_enter (show Vocabulary.enter .functions .empty "sin" sin = _ from rfl)
  have hV : V.Reachable :=
    ((Vocabulary.Reachable.empty.addVariable hx).addVariable hxy).addFunction hsin
  have hregister : ∃ V', V.register .empty (.called "sinh" 1 fun _ => 0.0) =
      .ok (.operator (.called "sinh" 1 fun _ => 0.0), V', .empty) := ⟨_, rfl⟩
  have hdrop : ∃ V'', V.dropVariable? "xy" = some (xy, V'') := ⟨_, rfl⟩
  obtain ⟨V', hregister⟩ := hregister
  obtain ⟨V'', hdrop⟩ := hdrop
  have hsinh : ¬"sinh".toList <:+: "sin(x)".toList := by decide
  have hname : ¬"xy".toList <:+: "sin(x)".toList := by decide
  obtain ⟨hregistered, hdropped⟩ := compile_ignores_unrelated hV "sin(x)".toList
  exact ⟨V, V', V'', _, xy, .empty, hV, hregister, hsinh, hdrop, hname,
    hregistered _ _ _ _ _ hregister hsinh, hdropped _ _ _ hdrop hname⟩

end Expression

end ImplicitPlot

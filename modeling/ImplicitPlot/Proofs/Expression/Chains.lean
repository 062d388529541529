import ImplicitPlot.Proofs.Expression.Composition

/-
  Chains: operands between parentheses with infix operators between them and white space around
  these. A chain splits at its loosest operator, the last one if there are several. What stands to
  the left of it is a chain and has its own program, and so has what stands to the right; the
  operator comes behind both (`compile_chain_splits`).

  The links of a chain only ever write out operators down to one that binds looser than all of
  them, so they are read above it as they are read alone (`run_links`). The loosest operator of a
  chain writes out all operators to its left, and stays below all links to its right.
-/
namespace ImplicitPlot.Expression

open Symbols Scan

/-- An infix operator of a chain and the operand behind it. -/
structure Link where
  /-- White space in front of the operator. -/
  before : List Char
  name : List Char
  op : Operator
  /-- White space behind the operator. -/
  after : List Char
  operand : List Char

/-- The operator with its white space. -/
def Link.sign (l : Link) : List Char := l.before ++ (l.name ++ l.after)

def Link.text (l : Link) : List Char := l.sign ++ parenthesised l.operand

/-- An operand in parentheses and the links behind it. -/
def chain (first : List Char) (links : List Link) : List Char :=
  parenthesised first ++ links.flatMap Link.text

/-- A link that a vocabulary can read. -/
structure Link.Fits (V : Vocabulary) (l : Link) : Prop where
  before_blank : ∀ b ∈ l.before, Text.isBlank b = true
  after_blank : ∀ b ∈ l.after, Text.isBlank b = true
  named : V.infixes.get? l.name = some l.op
  compiles : ∃ p, compile V l.operand = .ok p

/-- The last one of the loosest operators of a chain. -/
structure LoosestAt (links : List Link) (k : Nat) (l : Link) : Prop where
  place : links[k]? = some l
  loosest : ∀ other ∈ links, l.op.priority ≤ other.op.priority
  last : ∀ other ∈ links.drop (k + 1), l.op.priority < other.op.priority

theorem exists_loosestAt {links : List Link} (hne : links ≠ []) : ∃ k l, LoosestAt links k l := by
  induction links with
  | nil => exact absurd rfl hne
  | cons l links ih =>
    rcases links with _ | ⟨next, links⟩
    · refine ⟨0, l, rfl, ?_, fun other h => by cases h⟩
      intro other hother
      rw [List.mem_singleton.mp hother]
    · obtain ⟨k, m, hplace, hloosest, hlast⟩ := ih (List.cons_ne_nil next links)
      -- The first link counts only if it is looser than the rest: the last of equals is meant.
      by_cases hlm : l.op.priority < m.op.priority
      · have hlower : ∀ other ∈ next :: links, l.op.priority < other.op.priority :=
          fun other hother => Nat.lt_of_lt_of_le hlm (hloosest other hother)
        refine ⟨0, l, rfl, ?_, hlower⟩
        intro other hother
        rcases List.mem_cons.mp hother with rfl | hother
        · exact Nat.le_refl _
        · exact Nat.le_of_lt (hlower other hother)
      · refine ⟨k + 1, m, hplace, ?_, hlast⟩
        intro other hother
        rcases List.mem_cons.mp hother with rfl | hother
        · exact Nat.le_of_not_lt hlm
        · exact hloosest other hother

section Links

variable {V : Vocabulary} (hV : V.Spelled)

include hV

theorem run_sign {l : Link} (h : l.Fits V) (offset : Nat) (code : List Instruction)
    (pending : List Pending) (rest : List Char) :
    run V offset (l.sign ++ '(' :: rest) ⟨code, pending, false⟩ =
      run V (offset + Text.byteLength l.sign) ('(' :: rest)
        ⟨(flushTighter l.op.priority pending code).2,
          .operator l.op :: (flushTighter l.op.priority pending code).1, true⟩ := by
  have hname : ∀ n, run V n (l.name ++ (l.after ++ '(' :: rest)) ⟨code, pending, false⟩ =
      run V (n + Text.byteLength l.name) (l.after ++ '(' :: rest)
        ⟨(flushTighter l.op.priority pending code).2,
          .operator l.op :: (flushTighter l.op.priority pending code).1, true⟩ := by
    intro n
    rcases hafter : l.after with _ | ⟨b, bs⟩
    · exact run_infixed hV h.named (d := '(') rfl n code pending rest
    · have hb := h.after_blank b (hafter ▸ List.mem_cons_self)
      exact run_infixed hV h.named (by rw [isSeparator, hb]; rfl) n code pending _
  rw [Link.sign, List.append_assoc, List.append_assoc, run_blanks_append h.before_blank, hname,
    run_blanks_append h.after_blank, Text.byteLength_append, Text.byteLength_append, Nat.add_assoc,
    Nat.add_assoc]

theorem run_link {l : Link} (h : l.Fits V) {p : Program} (hp : compile V l.operand = .ok p)
    (offset : Nat) (code : List Instruction) (pending : List Pending) (rest : List Char) :
    run V offset (l.text ++ rest) ⟨code, pending, false⟩ =
      run V (offset + Text.byteLength l.text) rest
        ⟨p.code.reverse ++ (flushTighter l.op.priority pending code).2,
          .operator l.op :: (flushTighter l.op.priority pending code).1, false⟩ := by
  have hsign := run_sign hV h offset code pending (l.operand ++ [')'] ++ rest)
  have hoperand := run_parenthesised hV hp (offset + Text.byteLength l.sign)
    (flushTighter l.op.priority pending code).2
    (.operator l.op :: (flushTighter l.op.priority pending code).1) rest
  rw [Link.text, List.append_assoc, Text.byteLength_append, ← Nat.add_assoc]
  exact hsign.trans hoperand

/-- Links are read above a stack as alone, if they bind tighter than its topmost operator. -/
theorem run_links {links : List Link} (hfits : ∀ l ∈ links, l.Fits V) (out : List Instruction)
    (ops : List Operator) :
    ∃ out' ops', (∀ op ∈ ops', op ∈ ops ∨ ∃ l ∈ links, l.op = op) ∧
      ∀ (offset : Nat) (code : List Instruction) (pending : List Pending) (rest : List Char),
        (∀ l ∈ links, TopBelow l.op.priority pending) →
          run V offset (links.flatMap Link.text ++ rest) ⟨out ++ code, waiting ops pending, false⟩ =
            run V (offset + Text.byteLength (links.flatMap Link.text)) rest
              ⟨out' ++ code, waiting ops' pending, false⟩ := by
  induction links generalizing out ops with
  | nil => exact ⟨out, ops, fun op hop => Or.inl hop, fun _ _ _ _ _ => rfl⟩
  | cons l links ih =>
    obtain ⟨p, hp⟩ := (hfits l List.mem_cons_self).compiles
    obtain ⟨out', ops', hops', hrun⟩ := ih (fun l' hl' => hfits l' (List.mem_cons_of_mem l hl'))
      (p.code.reverse ++ emit (ops.takeWhile fun op => l.op.priority ≤ op.priority) out)
      (l.op :: ops.dropWhile fun op => l.op.priority ≤ op.priority)
    refine ⟨out', ops', ?_, ?_⟩
    · intro op hop
      rcases hops' op hop with hwaits | ⟨l', hl', rfl⟩
      · rcases List.mem_cons.mp hwaits with rfl | hold
        · exact Or.inr ⟨l, List.mem_cons_self, rfl⟩
        · exact Or.inl ((List.dropWhile_suffix _).mem hold)
      · exact Or.inr ⟨l', List.mem_cons_of_mem l hl', rfl⟩
    · intro offset code pending rest hbelow
      have hlink := run_link hV (hfits l List.mem_cons_self) hp offset (out ++ code)
        (waiting ops pending) (links.flatMap Link.text ++ rest)
      rw [flushTighter_waiting_above (hbelow l List.mem_cons_self), emit_append_code] at hlink
      have hlinks := hrun (offset + Text.byteLength l.text) code pending rest
        (fun l' hl' => hbelow l' (List.mem_cons_of_mem l hl'))
      rw [List.append_assoc] at hlinks
      rw [List.flatMap_cons, List.append_assoc, Text.byteLength_append, ← Nat.add_assoc]
      exact hlink.trans hlinks

theorem run_chain {first : List Char} {p : Program} (hfirst : compile V first = .ok p)
    {links : List Link} (hfits : ∀ l ∈ links, l.Fits V) :
    ∃ out ops, (∀ op ∈ ops, ∃ l ∈ links, l.op = op) ∧
      ∀ (offset : Nat) (code : List Instruction) (pending : List Pending) (rest : List Char),
        (∀ l ∈ links, TopBelow l.op.priority pending) →
          run V offset (chain first links ++ rest) ⟨code, pending, true⟩ =
            run V (offset + Text.byteLength (chain first links)) rest
              ⟨out ++ code, waiting ops pending, false⟩ := by
  obtain ⟨out, ops, hops, hrun⟩ := run_links hV hfits p.code.reverse []
  refine ⟨out, ops, ?_, ?_⟩
  · intro op hop
    exact (hops op hop).resolve_left List.not_mem_nil
  · intro offset code pending rest hbelow
    have hhead := run_parenthesised hV hfirst offset code pending
      (links.flatMap Link.text ++ rest)
    have hlinks := hrun (offset + Text.byteLength (parenthesised first)) code pending rest hbelow
    rw [chain, List.append_assoc, Text.byteLength_append, ← Nat.add_assoc]
    exact hhead.trans hlinks

/-- Between links that bind at least as tightly and links that bind tighter, a link splits the
chain. -/
theorem compile_chain_append {first : List Char} {p₀ : Program} (hfirst : compile V first = .ok p₀)
    {l : Link} {left right : List Link} (hfits : ∀ m ∈ left ++ l :: right, m.Fits V)
    (hleft : ∀ m ∈ left, l.op.priority ≤ m.op.priority)
    (hright : ∀ m ∈ right, l.op.priority < m.op.priority) :
    ∃ p q, compile V (chain first left) = .ok p ∧ compile V (chain l.operand right) = .ok q ∧
      compile V (chain first (left ++ l :: right)) = .ok ((p ++ q).push (.apply l.op)) := by
  have hlink : l.Fits V := hfits l (List.mem_append_right left List.mem_cons_self)
  obtain ⟨q₀, hq₀⟩ := hlink.compiles
  obtain ⟨out₁, ops₁, hops₁, hrun₁⟩ := run_chain hV hfirst
    fun m hm => hfits m (List.mem_append_left _ hm)
  obtain ⟨out₂, ops₂, -, hrun₂⟩ := run_chain hV hq₀
    fun m hm => hfits m (List.mem_append_right left (List.mem_cons_of_mem l hm))
  have hnil : ∀ {links : List Link}, ∀ m ∈ links, TopBelow m.op.priority [] :=
    fun m _ => topBelow_nil m.op.priority
  have hp := hrun₁ 0 [] [] [] hnil
  have hq := hrun₂ 0 [] [] [] hnil
  rw [List.append_nil, List.append_nil] at hp hq
  refine ⟨_, _, compile_of_run ops₁ hp, compile_of_run ops₂ hq, ?_⟩
  -- The operator writes out all that waits, as everything to its left binds at least as tightly.
  have hflush : flushTighter l.op.priority (waiting ops₁ []) out₁ = ([], emit ops₁ out₁) := by
    refine flushTighter_waiting (fun op hop => ?_) [] out₁
    obtain ⟨m, hm, rfl⟩ := hops₁ op hop
    exact hleft m hm
  have habove : ∀ m ∈ right, TopBelow m.op.priority [.operator l.op] :=
    fun m hm => (topBelow_operator l.op []).mono (hright m hm)
  have htext : chain first (left ++ l :: right) =
      chain first left ++ (l.sign ++ chain l.operand right) := by
    simp only [chain, List.flatMap_append, List.flatMap_cons, Link.text, List.append_assoc]
  have hstart := hrun₁ 0 [] [] (l.sign ++ chain l.operand right) hnil
  have hsign := run_sign hV hlink (0 + Text.byteLength (chain first left)) out₁ (waiting ops₁ [])
    (l.operand ++ [')'] ++ right.flatMap Link.text)
  rw [hflush] at hsign
  have hend := hrun₂ (0 + Text.byteLength (chain first left) + Text.byteLength l.sign)
    (emit ops₁ out₁) [.operator l.op] [] habove
  rw [List.append_nil] at hstart hend
  have hrun := hstart.trans (hsign.trans hend)
  have hops : waiting ops₂ [.operator l.op] = waiting (ops₂ ++ [l.op]) [] :=
    (waiting_append ops₂ [l.op] []).symm
  rw [← htext, hops] at hrun
  rw [compile_of_run _ hrun, emit_append, emit_append_code, emit_cons, emit_nil,
    List.reverse_cons, List.reverse_append]
  rfl

end Links

/-- A chain compiles, and splits at its loosest operator, the last one if there are several: its
program is that of the chain to the left, that of the chain to the right and then the operator. -/
theorem compile_chain_splits {V : Vocabulary} (hV : V.Reachable) {first : List Char}
    (hfirst : ∃ p, compile V first = .ok p) {links : List Link} (hne : links ≠ [])
    (hfits : ∀ l ∈ links, l.Fits V) :
    (∃ k l, LoosestAt links k l) ∧ ∀ k l, LoosestAt links k l →
      ∃ p q, compile V (chain first (links.take k)) = .ok p ∧
        compile V (chain l.operand (links.drop (k + 1))) = .ok q ∧
        compile V (chain first links) = .ok ((p ++ q).push (.apply l.op)) := by
  refine ⟨exists_loosestAt hne, fun k l hk => ?_⟩
  obtain ⟨p₀, hp₀⟩ := hfirst
  obtain ⟨hlt, hget⟩ := List.getElem?_eq_some_iff.mp hk.place
  have hlinks : links = links.take k ++ l :: links.drop (k + 1) := by
    rw [← hget, List.getElem_cons_drop, List.take_append_drop]
  obtain ⟨p, q, hp, hq, hwhole⟩ := compile_chain_append hV.spelled hp₀ (hlinks ▸ hfits)
    (fun m hm => hk.loosest m (List.mem_of_mem_take hm)) hk.last
  rw [← hlinks] at hwhole
  exact ⟨p, q, hp, hq, hwhole⟩

/-- Two operators of one priority and a tighter one between them: the last one splits the chain,
the first one splits what is to its left, and the tighter one comes first. -/
theorem compile_chain_splits_three :
    ∃ (V : Vocabulary) (x : Variable) (minus times : Operator), V.Reachable ∧
      compile V ['x'] = .ok ⟨[.load x]⟩ ∧
      compile V "(x) - (x)*(x) - (x)".toList = .ok ⟨[.load x, .load x, .load x, .apply times,
        .apply minus, .load x, .apply minus]⟩ := by
  let x : Variable := ⟨"x", .free, 0⟩
  let minus : Operator := .infixed "-" 10 fun _ => 0.0
  let times : Operator := .infixed "*" 20 fun _ => 0.0
  let V₁ : Vocabulary := { Vocabulary.empty with vars := ⟨.node 'x' (some x) .nil .nil, 1⟩ }
  let V₂ : Vocabulary := { V₁ with infixes := ⟨.node '-' (some minus) .nil .nil, 1⟩ }
  let V : Vocabulary := { V₁ with
    infixes := ⟨.node '*' (some times) .nil (.node '-' (some minus) .nil .nil), 2⟩ }
  have hx : Vocabulary.empty.addVariable .empty "x" .free 0.0 =
      .ok (x, V₁, Store.empty.push 0.0) := rfl
  have hminus : V₁.addOperator minus = .ok V₂ :=
    Vocabulary.addOperator_of_enter (show Vocabulary.enter .infixes .empty "-" minus = _ from rfl)
  have htimes : V₂.addOperator times = .ok V :=
    Vocabulary.addOperator_of_enter
      (show Vocabulary.enter .infixes ⟨.node '-' (some minus) .nil .nil, 1⟩ "*" times = _ from rfl)
  have hV : V.Reachable :=
    ((Vocabulary.Reachable.empty.addVariable hx).addInfix hminus).addInfix htimes
  have hrun : start.run V 0 ['x'] = run V 1 [] ⟨[.load x], [], false⟩ :=
    run_operand 'x' [] [] rfl rfl rfl rfl
  have hload : compile V ['x'] = .ok ⟨[.load x]⟩ := compile_of_run [] hrun
  have hparen : compile V (chain ['x'] []) = .ok ⟨[.load x]⟩ :=
    compile_parenthesised hV.spelled hload
  let m : Link := ⟨[' '], ['-'], minus, [' '], ['x']⟩
  let t : Link := ⟨[], ['*'], times, [], ['x']⟩
  have hblank : ∀ b ∈ [' '], Text.isBlank b = true := List.forall_mem_singleton.mpr rfl
  have hm : m.Fits V := ⟨hblank, hblank, rfl, _, hload⟩
  have ht : t.Fits V := ⟨List.forall_mem_nil _, List.forall_mem_nil _, rfl, _, hload⟩
  have hfits : ∀ l, l = m ∨ l = t → l.Fits V := by
    rintro l (rfl | rfl)
    · exact hm
    · exact ht
  have hsplit : ∀ (links : List Link) (k : Nat) (l : Link), links ≠ [] →
      (∀ l ∈ links, l = m ∨ l = t) → LoosestAt links k l →
        ∃ p q, compile V (chain ['x'] (links.take k)) = .ok p ∧
          compile V (chain l.operand (links.drop (k + 1))) = .ok q ∧
          compile V (chain ['x'] links) = .ok ((p ++ q).push (.apply l.op)) :=
    fun links k l hne hlinks =>
      (compile_chain_splits hV ⟨_, hload⟩ hne fun l hl => hfits l (hlinks l hl)).2 k l
  obtain ⟨p₁, q₁, hp₁, hq₁, hproduct⟩ := hsplit [t] 0 t (List.cons_ne_nil _ _) (by simp)
    ⟨rfl, by decide, by decide⟩
  obtain ⟨p₂, q₂, hp₂, hq₂, hleft⟩ := hsplit [m, t] 0 m (List.cons_ne_nil _ _) (by simp)
    ⟨rfl, by decide, by decide⟩
  obtain ⟨p₃, q₃, hp₃, hq₃, hwhole⟩ := hsplit [m, t, m] 2 m (List.cons_ne_nil _ _) (by simp)
    ⟨rfl, by decide, by decide⟩
  cases hparen.symm.trans hp₁
  cases hparen.symm.trans hq₁
  cases hparen.symm.trans hp₂
  cases hproduct.symm.trans hq₂
  cases hleft.symm.trans hp₃
  cases hparen.symm.trans hq₃
  exact ⟨V, x, minus, times, hV, hload, hwhole⟩

end ImplicitPlot.Expression

import ImplicitPlot.Proofs.Expression.Climbing
import ImplicitPlot.Proofs.Expression.Running

/-
  Programs as listings of trees. Code that runs on trees instead of values builds, at each
  operator, the tree of the operator and the trees that it takes (`graft?`). Such a run lists the
  trees on its stack in postorder (`postorderAll_of_graft?`), and the listing of a tree leaves
  that tree (`graft?_postorder`), so a list of instructions lists at most one tree.

  The values of the trees are the values on the stack of the machine (`Machine.exec_map_value`).
-/
namespace ImplicitPlot.Expression

open Symbols

namespace Tree

/-! ## Trees with all their operands -/

/-- Every operator of a tree has as many operands as it takes. -/
inductive Saturated : Tree → Prop where
  | literal (x : Float) : (literal x).Saturated
  | load (v : Variable) : (load v).Saturated
  | apply {op : Operator} {operands : List Tree} (harity : operands.length = op.arity)
      (hoperands : ∀ t ∈ operands, t.Saturated) : (apply op operands).Saturated

mutual

/-- The value of a tree, each operator applied to the values of its operands from left to right. -/
def value (σ : Store) : Tree → Float
  | literal x => x
  | load v => σ.read v
  | apply op operands => op.apply (valueAll σ operands)

/-- The values of trees. -/
def valueAll (σ : Store) : List Tree → List Float
  | [] => []
  | t :: ts => value σ t :: valueAll σ ts

end

theorem valueAll_eq_map (σ : Store) (ts : List Tree) : valueAll σ ts = ts.map (value σ) := by
  induction ts with
  | nil => simp [valueAll]
  | cons t ts ih => simp [valueAll, ih]

theorem postorderAll_append (ts us : List Tree) :
    postorderAll (ts ++ us) = postorderAll ts ++ postorderAll us := by
  induction ts with
  | nil => simp [postorderAll]
  | cons t ts ih => simp [postorderAll, ih]

/-- The topmost tree of a stack is listed last. -/
theorem postorderAll_reverse_cons (t : Tree) (ts : List Tree) :
    postorderAll (t :: ts).reverse = postorderAll ts.reverse ++ postorder t := by
  simp [postorderAll_append, postorderAll]

end Tree

/-! ## Running code on trees -/

/-- The trees after one instruction; the topmost comes first. None if trees are missing. -/
def Instruction.graft? (trees : List Tree) : Instruction → Option (List Tree)
  | literal x => some (.literal x :: trees)
  | load v => some (.load v :: trees)
  | apply op =>
    if op.arity ≤ trees.length then
      some (.apply op (trees.take op.arity).reverse :: trees.drop op.arity)
    else none

/-- The trees after code; none if some instruction lacks trees. -/
def graft? : List Instruction → List Tree → Option (List Tree)
  | [], trees => some trees
  | i :: code, trees => (i.graft? trees).bind (graft? code)

/-- An operator takes the trees above `trees` if they are as many as it needs. -/
theorem Instruction.graft?_apply {op : Operator} {operands : List Tree}
    (h : operands.length = op.arity) (trees : List Tree) :
    (apply op).graft? (operands.reverse ++ trees) = some (.apply op operands :: trees) := by
  have hlength : operands.reverse.length = op.arity := by simpa using h
  have henough : op.arity ≤ (operands.reverse ++ trees).length := by simp [hlength]
  rw [graft?, if_pos henough, List.take_left' hlength, List.drop_left' hlength,
    List.reverse_reverse]

/-- The listing of a tree leaves that tree. -/
theorem graft?_postorder {t : Tree} (h : t.Saturated) (code : List Instruction)
    (trees : List Tree) : graft? (t.postorder ++ code) trees = graft? code (t :: trees) := by
  induction h generalizing code trees with
  | literal x => simp [Tree.postorder, graft?, Instruction.graft?]
  | load v => simp [Tree.postorder, graft?, Instruction.graft?]
  | @apply op operands harity _ ih =>
    have hoperands : ∀ (ts : List Tree), (∀ t ∈ ts, t ∈ operands) → ∀ code trees,
        graft? (Tree.postorderAll ts ++ code) trees = graft? code (ts.reverse ++ trees) := by
      intro ts hts
      induction ts with
      | nil => simp [Tree.postorderAll]
      | cons t ts ihs =>
        intro code trees
        have hrest := ihs (fun u hu => hts u (List.mem_cons_of_mem t hu))
        rw [Tree.postorderAll, List.append_assoc, ih t (hts t List.mem_cons_self), hrest]
        simp
    rw [Tree.postorder, List.append_assoc, hoperands operands (fun _ h => h)]
    simp [graft?, Instruction.graft?_apply harity]

/-- One instruction extends the listing of the trees on a stack by itself. -/
theorem Instruction.postorderAll_of_graft? {i : Instruction} {trees trees' : List Tree}
    (h : i.graft? trees = some trees') (hall : ∀ t ∈ trees, t.Saturated) :
    Tree.postorderAll trees'.reverse = Tree.postorderAll trees.reverse ++ [i] ∧
      ∀ t ∈ trees', t.Saturated := by
  cases i with
  | literal x =>
    obtain rfl := Option.some.inj h
    have hnew := Tree.Saturated.literal x
    exact ⟨Tree.postorderAll_reverse_cons _ _, List.forall_mem_cons.mpr ⟨hnew, hall⟩⟩
  | load v =>
    obtain rfl := Option.some.inj h
    have hnew := Tree.Saturated.load v
    exact ⟨Tree.postorderAll_reverse_cons _ _, List.forall_mem_cons.mpr ⟨hnew, hall⟩⟩
  | apply op =>
    rw [graft?] at h
    split at h
    · rename_i henough
      obtain rfl := Option.some.inj h
      have hsplit : trees.reverse =
          (trees.drop op.arity).reverse ++ (trees.take op.arity).reverse := by
        rw [← List.reverse_append, List.take_append_drop]
      have hnew : (Tree.apply op (trees.take op.arity).reverse).Saturated := by
        have harity : (trees.take op.arity).reverse.length = op.arity := by
          simp only [List.length_reverse, List.length_take]
          omega
        refine .apply harity ?_
        intro t ht
        exact hall t (List.mem_of_mem_take (List.mem_reverse.mp ht))
      have hbelow : ∀ t ∈ trees.drop op.arity, t.Saturated := by
        intro t ht
        exact hall t (List.mem_of_mem_drop ht)
      refine ⟨?_, List.forall_mem_cons.mpr ⟨hnew, hbelow⟩⟩
      rw [Tree.postorderAll_reverse_cons, hsplit, Tree.postorderAll_append, Tree.postorder,
        List.append_assoc]
    · simp at h

/-- Code extends the listing of the trees on a stack by itself. -/
theorem postorderAll_of_graft? {code : List Instruction} {trees trees' : List Tree}
    (h : graft? code trees = some trees') (hall : ∀ t ∈ trees, t.Saturated) :
    Tree.postorderAll trees'.reverse = Tree.postorderAll trees.reverse ++ code ∧
      ∀ t ∈ trees', t.Saturated := by
  induction code generalizing trees with
  | nil =>
    obtain rfl := Option.some.inj h
    exact ⟨by simp, hall⟩
  | cons i code ih =>
    rw [graft?, Option.bind_eq_some_iff] at h
    obtain ⟨next, hi, hcode⟩ := h
    obtain ⟨hfirst, hnext⟩ := Instruction.postorderAll_of_graft? hi hall
    obtain ⟨hrest, hall'⟩ := ih hcode hnext
    refine ⟨?_, hall'⟩
    rw [hrest, hfirst, List.append_assoc]
    rfl

/-- Code that builds one tree from nothing is the listing of that tree. -/
theorem graft?_eq_singleton_iff {code : List Instruction} {t : Tree} :
    graft? code [] = some [t] ↔ t.Saturated ∧ t.postorder = code := by
  constructor
  · intro h
    obtain ⟨hlisting, hall⟩ := postorderAll_of_graft? h (by simp)
    refine ⟨hall t (by simp), ?_⟩
    simpa [Tree.postorderAll] using hlisting
  · rintro ⟨hsaturated, rfl⟩
    have hbuilt := graft?_postorder hsaturated [] []
    rwa [List.append_nil] at hbuilt

/-! ## Running code on the values of trees -/

/-- An instruction finds its operands among values where it finds them among trees. -/
theorem Instruction.exec_map_value (σ : Store) (i : Instruction) (trees : List Tree) :
    (∃ trees', i.graft? trees = some trees' ∧
      i.exec σ (trees.map (Tree.value σ)) = .ok (trees'.map (Tree.value σ))) ∨
    i.graft? trees = none ∧ ∃ e, i.exec σ (trees.map (Tree.value σ)) = .error e := by
  cases i with
  | literal x => exact Or.inl ⟨_, rfl, by simp [exec, Tree.value]⟩
  | load v => exact Or.inl ⟨_, rfl, by simp [exec, Tree.value]⟩
  | apply op =>
    have hlength : (trees.map (Tree.value σ)).length = trees.length := List.length_map _
    by_cases henough : op.arity ≤ trees.length
    · refine Or.inl ⟨_, if_pos henough, ?_⟩
      rw [exec, if_pos (hlength ▸ henough)]
      simp [Tree.value, Tree.valueAll_eq_map, List.map_take, List.map_drop, List.map_reverse]
    · exact Or.inr ⟨if_neg henough, _, if_neg (hlength ▸ henough)⟩

theorem Machine.exec_map_value (σ : Store) {code : List Instruction} {trees : List Tree}
    {stack : List Float} :
    exec σ code (trees.map (Tree.value σ)) = (none, stack) ↔
      ∃ trees', graft? code trees = some trees' ∧ trees'.map (Tree.value σ) = stack := by
  induction code generalizing trees with
  | nil => simp [exec, graft?]
  | cons i code ih =>
    rw [exec, graft?]
    obtain ⟨next, hgraft, hexec⟩ | ⟨hgraft, e, hexec⟩ := i.exec_map_value σ trees
    · simp only [hgraft, hexec, Option.bind_some]
      exact ih
    · simp [hgraft, hexec]

/-- A program has a value exactly if it lists a tree whose operators have all their operands, on
every machine and under every store. It lists one such tree at most, and its value is the value
of that tree. -/
theorem Program.evaluate_reads_tree (p : Program) (m : Machine) (σ : Store) :
    (∀ x, (m.evaluate σ p).1 = .ok x ↔
      ∃ t : Tree, t.Saturated ∧ t.postorder = p.code ∧ t.value σ = x) ∧
    ∀ t u : Tree, t.Saturated → u.Saturated → t.postorder = p.code → u.postorder = p.code →
      t = u := by
  constructor
  · intro x
    calc (m.evaluate σ p).1 = .ok x
      _ ↔ Machine.exec σ p.code ([].map (Tree.value σ)) = (none, [x]) := by
        rw [Machine.evaluate_fst]
        exact ⟨exec_of_value, value_of_exec⟩
      _ ↔ ∃ trees, graft? p.code [] = some trees ∧ trees.map (Tree.value σ) = [x] :=
        Machine.exec_map_value σ
      _ ↔ ∃ t : Tree, t.Saturated ∧ t.postorder = p.code ∧ t.value σ = x := by
        simp only [List.map_eq_singleton_iff]
        constructor
        · rintro ⟨_, hbuilt, t, rfl, hx⟩
          obtain ⟨hsaturated, hcode⟩ := graft?_eq_singleton_iff.mp hbuilt
          exact ⟨t, hsaturated, hcode, hx⟩
        · rintro ⟨t, hsaturated, hcode, hx⟩
          exact ⟨[t], graft?_eq_singleton_iff.mpr ⟨hsaturated, hcode⟩, t, rfl, hx⟩
  · intro t u ht hu hpt hpu
    have hbuilt := graft?_eq_singleton_iff.mpr ⟨ht, hpt⟩
    rw [graft?_eq_singleton_iff.mpr ⟨hu, hpu⟩] at hbuilt
    simpa using hbuilt.symm

end ImplicitPlot.Expression

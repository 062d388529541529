import ImplicitPlot.PlotFile.Basic
import ImplicitPlot.Proofs.Session.Cells
import Mathlib.Data.List.TakeWhile

/-
  The constants of a plot in a vocabulary that a host may have made and changed as it likes. They
  are registered one after the other up to the first that is refused, and what was registered
  before it stays. Their names differ (`PlotFile.nodup_constants`), so none of them is refused
  because of another: what is registered is the longest run of names at the front of the list that
  the vocabulary admitted from the start (`PlotFile.register_longest_run`).

  `Vocabulary.Gained` says what a run changes. It is composed of single registrations, each of which
  leaves the names behind it as they were (`Vocabulary.Admits.put`). A host that registers the
  constants itself ends with the same vocabulary and cells (`PlotFile.exists_calls_registerAll`), so
  all that is said of hosts holds after it as well.
-/
namespace ImplicitPlot

open Symbols

namespace Symbols.Vocabulary

/-! ## One constant -/

/-- A variable of this name can be registered: the name can be spelled, and no variable has it. -/
structure Admits (V : Vocabulary) (name : String) : Prop where
  spells : Table.vars.Spells name.toList
  free : V.variableNamed? name = none

theorem admits_iff {V : Vocabulary} {name : String} :
    V.Admits name ↔ Table.vars.Spells name.toList ∧ V.variableNamed? name = none :=
  ⟨fun h => ⟨h.spells, h.free⟩, fun h => ⟨h.1, h.2⟩⟩

instance (V : Vocabulary) (name : String) : Decidable (V.Admits name) :=
  decidable_of_iff _ admits_iff.symm

/-- Why a variable is refused whose name is not admitted. -/
def refusal (name : String) : RegistrationError :=
  if Table.vars.Spells name.toList then .duplicate .vars name else .invalidName .vars name

variable {V V' : Vocabulary} {σ : Store} {name other : String} {kind : VariableKind}

theorem not_admits_iff : ¬V.Admits name ↔
    (Table.vars.Spells name.toList → (V.find? .vars name.toList).isSome = true) := by
  have hfree : ¬V.variableNamed? name = none ↔ (V.find? .vars name.toList).isSome = true := by
    rw [find?, Option.isSome_map, Option.isSome_iff_ne_none]
    exact Iff.rfl
  rw [admits_iff, not_and, hfree]

theorem addVariable_of_admits (h : V.Admits name) (x : Float) :
    V.addVariable σ name kind x = .ok (⟨name, kind, σ.cells.size⟩,
      V.put (.var ⟨name, kind, σ.cells.size⟩), σ.push x) := by
  let entry : Entry := .var ⟨name, kind, σ.cells.size⟩
  have hnone : entry.refusal? ((V.find? entry.table entry.name.toList).isSome = true) = none := by
    refine Entry.refusal?_eq_none_iff.mpr ⟨h.spells, ?_, rfl⟩
    intro htaken
    exact not_admits_iff.mpr (fun _ => htaken) h
  rw [addVariable_eq, accept, hnone]
  rfl

theorem addVariable_of_not_admits (h : ¬V.Admits name) (x : Float) :
    V.addVariable σ name kind x = .error (refusal name) := by
  let entry : Entry := .var ⟨name, kind, σ.cells.size⟩
  have hrefused : entry.refusal? ((V.find? entry.table entry.name.toList).isSome = true) =
      some (refusal name) := by
    unfold Entry.refusal? refusal
    rw [if_neg (show ¬entry.isNullary = true from Bool.false_ne_true)]
    by_cases hspells : Table.vars.Spells name.toList
    · have htaken : (V.find? entry.table entry.name.toList).isSome = true :=
        not_admits_iff.mp h hspells
      rw [if_pos (show entry.table.Spells entry.name.toList from hspells), if_pos hspells,
        if_pos htaken]
      rfl
    · rw [if_neg (show ¬entry.table.Spells entry.name.toList from hspells), if_neg hspells]
      rfl
  rw [addVariable_eq, accept, hrefused]
  rfl

/-- A registered variable has its name, and all other names stay what they are. -/
theorem InOrder.variableNamed?_put (hV : V.InOrder) {v : Variable} (hname : v.name.toList ≠ [])
    (other : String) :
    (V.put (.var v)).variableNamed? other =
      if other = v.name then some v else V.variableNamed? other := by
  have hget := Trie.get?_put hV.vars hname v other.toList
  simp only [String.toList_inj] at hget
  exact hget

theorem Admits.put (h : V.Admits other) (hV : V.InOrder) {v : Variable}
    (hname : v.name.toList ≠ []) (hne : other ≠ v.name) : (V.put (.var v)).Admits other where
  spells := h.spells
  free := by rw [hV.variableNamed?_put hname, if_neg hne, h.free]

/-! ## A run of constants -/

/-- A vocabulary with some constants more than another, in cells from a number on. -/
structure Gained (V : Vocabulary) (cell : Nat) (run : List (String × Float)) (V' : Vocabulary) :
    Prop where
  inOrder : V'.InOrder
  named : ∀ j name x, run[j]? = some (name, x) →
    V'.variableNamed? name = some ⟨name, .constant, cell + j⟩
  others : ∀ name, name ∉ run.map Prod.fst → V'.variableNamed? name = V.variableNamed? name
  operators : ∀ fixity, V'.operators fixity = V.operators fixity

theorem Gained.nil (hV : V.InOrder) (cell : Nat) : V.Gained cell [] V where
  inOrder := hV
  named _ _ _ h := by cases h
  others _ _ := rfl
  operators _ := rfl

/-- A constant that is registered in front of others has another name than they. -/
theorem Gained.cons {cell : Nat} {x : Float} {run : List (String × Float)} (hV : V.InOrder)
    (hname : name.toList ≠ []) (hnew : name ∉ run.map Prod.fst)
    (h : (V.put (.var ⟨name, .constant, cell⟩)).Gained (cell + 1) run V') :
    V.Gained cell ((name, x) :: run) V' where
  inOrder := h.inOrder
  named j other y hj := by
    cases j with
    | zero =>
      obtain ⟨rfl, rfl⟩ := Prod.mk.inj (Option.some.inj hj)
      rw [h.others name hnew, hV.variableNamed?_put hname, if_pos rfl]
      rfl
    | succ j =>
      rw [h.named j other y hj, Nat.add_assoc, Nat.add_comm 1 j]
  others other hother := by
    rw [List.map_cons, List.mem_cons, not_or] at hother
    rw [h.others other hother.2, hV.variableNamed?_put hname, if_neg hother.1]
  operators fixity := by
    rw [h.operators fixity]
    cases fixity <;> rfl

end Symbols.Vocabulary

namespace PlotFile

open Vocabulary

variable {V V' : Vocabulary} {σ : Store}

/-- Constants that the vocabulary admits are registered whatever stands behind them. -/
theorem registerAll_append (hV : V.InOrder) {run : List (String × Float)}
    (hadmits : ∀ c ∈ run, V.Admits c.1) (hnames : (run.map Prod.fst).Nodup) (σ : Store) :
    ∃ V', V.Gained σ.cells.size run V' ∧ ∀ rest,
      registerAll V σ (run ++ rest) = registerAll V' (σ.append (run.map Prod.snd)) rest := by
  induction run generalizing V σ with
  | nil =>
    refine ⟨V, .nil hV _, fun rest => ?_⟩
    rw [List.map_nil, Store.append_nil, List.nil_append]
  | cons c run ih =>
    obtain ⟨name, x⟩ := c
    rw [List.map_cons, List.nodup_cons] at hnames
    have hhead : V.Admits name := hadmits (name, x) List.mem_cons_self
    have hname : name.toList ≠ [] := hhead.spells.ne_nil
    let v : Variable := ⟨name, .constant, σ.cells.size⟩
    have htail : ∀ c ∈ run, (V.put (.var v)).Admits c.1 := by
      intro c hc
      have hne : c.1 ≠ name := by
        intro heq
        exact hnames.1 (heq ▸ List.mem_map.mpr ⟨c, hc, rfl⟩)
      exact (hadmits c (List.mem_cons_of_mem _ hc)).put hV hname hne
    obtain ⟨V', hgained, hrest⟩ := ih (hV.put (.var v)) htail hnames.2 (σ.push x)
    have hsize : (σ.push x).cells.size = σ.cells.size + 1 := by simp [Store.push]
    rw [hsize] at hgained
    refine ⟨V', .cons hV hname hnames.1 hgained, fun rest => ?_⟩
    have hpush : (σ.push x).append (run.map Prod.snd) =
        σ.append (((name, x) :: run).map Prod.snd) := by
      rw [σ.push_eq_append, Store.append_append]
      rfl
    rw [List.cons_append, registerAll, addVariable_of_admits hhead, ← hpush, ← hrest rest]

/-- What is said of the constants behind a run, of which the first is refused. -/
def answer : List (String × Float) → Except RegistrationError Unit
  | [] => .ok ()
  | (name, _) :: _ => .error (refusal name)

theorem registerAll_refused {rest : List (String × Float)}
    (h : ∀ c ∈ rest.head?, ¬V.Admits c.1) (σ : Store) :
    registerAll V σ rest = (answer rest, V, σ) := by
  cases rest with
  | nil => rfl
  | cons c rest =>
    obtain ⟨name, x⟩ := c
    rw [registerAll, addVariable_of_not_admits (h (name, x) rfl)]
    rfl

theorem admits_of_mem_takeWhile {c : String × Float} {cs : List (String × Float)}
    (hc : c ∈ cs.takeWhile fun c => V.Admits c.1) : V.Admits c.1 := by
  have hyes := List.mem_takeWhile_imp (p := fun c : String × Float => decide (V.Admits c.1)) hc
  exact of_decide_eq_true hyes

/-- Of constants with different names the longest run is registered whose names are admitted. -/
theorem exists_gained_registerAll (hV : V.InOrder) {cs : List (String × Float)}
    (hnames : (cs.map Prod.fst).Nodup) (σ : Store) :
    let run := cs.takeWhile fun c => V.Admits c.1
    ∃ V', V.Gained σ.cells.size run V' ∧
      registerAll V σ cs =
        (answer (cs.dropWhile fun c => V.Admits c.1), V', σ.append (run.map Prod.snd)) := by
  intro run
  have hadmits : ∀ c ∈ run, V.Admits c.1 := fun _ => admits_of_mem_takeWhile
  obtain ⟨rest, hrest⟩ : ∃ rest, (cs.dropWhile fun c => V.Admits c.1) = rest := ⟨_, rfl⟩
  have hsplit : run ++ rest = cs := by
    rw [← hrest]
    exact List.takeWhile_append_dropWhile
  have hdistinct : (run.map Prod.fst ++ rest.map Prod.fst).Nodup := by
    rw [← List.map_append, hsplit]
    exact hnames
  obtain ⟨V', hgained, happend⟩ :=
    registerAll_append hV hadmits (List.nodup_append.mp hdistinct).1 σ
  -- the first name behind the run is refused as it would have been before the run
  have hrefused : ∀ c ∈ rest.head?, ¬V'.Admits c.1 := by
    intro c hc hadmitted
    have hnew : c.1 ∉ run.map Prod.fst := by
      intro hold
      have hlater : c.1 ∈ rest.map Prod.fst :=
        List.mem_map_of_mem (List.mem_of_mem_head? hc)
      exact (List.nodup_append.mp hdistinct).2.2 _ hold _ hlater rfl
    have hfree := hadmitted.free
    rw [hgained.others c.1 hnew] at hfree
    have hfirst := List.head?_dropWhile_not (fun c => decide (V.Admits c.1)) cs
    rw [hrest, Option.mem_def.mp hc] at hfirst
    exact of_decide_eq_false hfirst ⟨hadmitted.spells, hfree⟩
  refine ⟨V', hgained, ?_⟩
  rw [hrest, ← registerAll_refused hrefused, ← happend rest, hsplit]

/-- What a host has after registering constants in one of its vocabularies it can also have by
registering one after the other itself. -/
theorem exists_calls_registerAll {S : Session} {i : Nat} {V : Vocabulary}
    (hi : S.library.items[i]? = some V) (cs : List (String × Float)) :
    ∃ calls, (S.after calls).library.items =
        S.library.items.set i (registerAll V S.store cs).2.1 ∧
      (S.after calls).store = (registerAll V S.store cs).2.2 := by
  induction cs generalizing S V with
  | nil => exact ⟨[], (congrArg Shelf.items (Shelf.set_self hi)).symm, rfl⟩
  | cons c cs ih =>
    obtain ⟨name, x⟩ := c
    rw [registerAll]
    cases hadd : V.addVariable S.store name .constant x with
    | error e => exact ⟨[], (congrArg Shelf.items (Shelf.set_self hi)).symm, rfl⟩
    | ok added =>
      obtain ⟨v, V', σ'⟩ := added
      let call : Call := .move (.edit i (.register (.constant name x)))
      have hedit : V.edit S.library.source (.register (.constant name x)) =
          (.entered (.var v), V', σ') := by
        rw [Vocabulary.edit, Vocabulary.register, show V.addVariable S.library.source name .constant x
          = .ok (v, V', σ') from hadd]
        rfl
      have hlibrary : (S.step call).library = ⟨S.library.items.set i V', σ'⟩ := by
        show (S.library.move _).2 = _
        rw [Library.move_edit hi, hedit]
      have hlt : i < S.library.items.length := (List.getElem?_eq_some_iff.mp hi).1
      have hi' : (S.step call).library.items[i]? = some V' := by
        rw [hlibrary]
        exact List.getElem?_set_self hlt
      obtain ⟨calls, hitems, hstore⟩ := ih hi'
      have hσ : (S.step call).store = σ' := congrArg Shelf.source hlibrary
      rw [hσ, hlibrary] at hitems
      rw [hσ] at hstore
      exact ⟨call :: calls, hitems.trans (List.set_set V'), hstore⟩

/-! ## Names of constants -/

theorem field?_cases {α : Type} {entries : List (String × Yaml.Node)} {name : String} {absent a : α}
    {read : Yaml.Node → Option α} (h : field? entries name absent read = some a) :
    a = absent ∨ ∃ n, read n = some a := by
  unfold field? at h
  split at h
  · exact Or.inl (Option.some.inj h).symm
  · exact Or.inr ⟨_, h⟩
  · cases h

theorem nodup_foldlM_put {entries : List (String × Yaml.Node)} {cs cs' : List (String × Float)}
    (hcs : (cs.map Prod.fst).Nodup)
    (h : entries.foldlM (fun cs (name, value) => return put cs name (← real? value)) cs = some cs') :
    (cs'.map Prod.fst).Nodup := by
  induction entries generalizing cs with
  | nil =>
    cases h
    exact hcs
  | cons e entries ih =>
    rw [List.foldlM_cons, Option.bind_eq_bind, Option.bind_eq_some_iff] at h
    obtain ⟨next, hnext, h⟩ := h
    simp only [Option.bind_eq_bind, Option.bind_eq_some_iff] at hnext
    obtain ⟨x, -, hput⟩ := hnext
    cases hput
    exact ih (nodup_put hcs e.1 x) h

/-- The constants of a plot that was read have different names. -/
theorem nodup_constants {text : String} {p : PlotFile} (h : read? text = some p) :
    (p.constants.map Prod.fst).Nodup := by
  have hfield : ∀ n, ofNode? n = some p → (p.constants.map Prod.fst).Nodup := by
    intro n hn
    simp only [ofNode?, Option.bind_eq_bind, Option.bind_eq_some_iff, Option.pure_def] at hn
    obtain ⟨fields, -, width, -, height, -, window, -, resolution, -, constants, hconstants,
      relations, -, heq⟩ := hn
    cases heq
    obtain rfl | ⟨node, hnode⟩ := field?_cases hconstants
    · exact List.nodup_nil
    · simp only [constants?, Option.bind_eq_bind, Option.bind_eq_some_iff] at hnode
      obtain ⟨entries, -, hfold⟩ := hnode
      have hnone : (([] : List (String × Float)).map Prod.fst).Nodup := List.nodup_nil
      exact nodup_foldlM_put hnone hfold
  simp only [read?, Option.bind_eq_bind, Option.bind_eq_some_iff] at h
  obtain ⟨documents, -, h⟩ := h
  split at h
  · cases h
    exact List.nodup_nil
  · exact hfield _ h
  · cases h

/-! ## The constants of a plot -/

/-- The constants of a plot have different names. Register them in any vocabulary that a host can
come to hold. Those of the longest run at the front of the list whose names the vocabulary admits
are registered, each as a constant with its value in a new cell, and no others. All went well exactly
if the run is the whole list. Otherwise the answer says why the first constant behind the run is
refused: its name cannot be spelled, or it is taken. Operators and functions stay what they are, the
names of variables keep their meaning, and every variable that the host can refer to keeps its
value. -/
theorem register_longest_run {calls : List Call} {i : Nat} {V : Vocabulary}
    (hV : (Session.start.after calls).library.items[i]? = some V) {p : PlotFile}
    (hnames : (p.constants.map Prod.fst).Nodup) :
    let S := Session.start.after calls
    let run := p.constants.takeWhile fun c => V.Admits c.1
    let registered := p.register V S.store
    (registered.1 = .ok () ↔ run = p.constants) ∧
    (∀ name x rest, p.constants = run ++ (name, x) :: rest →
      registered.1 = .error (if Table.vars.Spells name.toList then .duplicate .vars name
        else .invalidName .vars name)) ∧
    (∀ j name x, run[j]? = some (name, x) →
      let v : Variable := ⟨name, .constant, S.store.cells.size + j⟩
      registered.2.1.variableNamed? name = some v ∧ registered.2.2.read v = x) ∧
    (∀ name, name ∉ run.map Prod.fst →
      registered.2.1.variableNamed? name = V.variableNamed? name) ∧
    (∀ fixity, registered.2.1.operators fixity = V.operators fixity) ∧
    (∀ name v, V.variableNamed? name = some v →
      registered.2.1.variableNamed? name = some v ∧ registered.2.2.read v = S.store.read v) ∧
    ∀ v, S.Knows v → v.cell < S.store.cells.size ∧ registered.2.2.read v = S.store.read v := by
  intro S run registered
  have hS : S.Sound := Session.sound_start.after calls
  have hmem : V ∈ S.library.items := List.mem_of_getElem? hV
  obtain ⟨V', hgained, hregistered⟩ :=
    exists_gained_registerAll (hS.inOrder V hmem) hnames S.store
  obtain ⟨rest, hrest⟩ : ∃ rest, (p.constants.dropWhile fun c => V.Admits c.1) = rest := ⟨_, rfl⟩
  have hsplit : run ++ rest = p.constants := by
    rw [← hrest]
    exact List.takeWhile_append_dropWhile
  replace hregistered : registered =
      (answer rest, V', S.store.append (run.map Prod.snd)) := hrest ▸ hregistered
  have hread : ∀ v, S.Knows v → v.cell < S.store.cells.size ∧
      (S.store.append (run.map Prod.snd)).read v = S.store.read v := by
    intro v hv
    have hcell := hS.in_store hv
    exact ⟨hcell, Store.read_of_cell_eq (S.store.cell_append _ hcell)⟩
  rw [hregistered]
  refine ⟨?_, ?_, ?_, hgained.others, hgained.operators, ?_, hread⟩
  · constructor
    · intro hok
      cases rest with
      | nil => rw [← hsplit, List.append_nil]
      | cons c rest => cases hok
    · intro hall
      rw [← hall, List.append_right_eq_self] at hsplit
      rw [hsplit]
      rfl
  · intro name x behind hbehind
    rw [← hsplit, List.append_cancel_left_eq] at hbehind
    rw [hbehind]
    rfl
  · intro j name x hj
    have hx : (run.map Prod.snd)[j]? = some x := by rw [List.getElem?_map, hj]; rfl
    exact ⟨hgained.named j name x hj, S.store.read_append hx rfl⟩
  · intro name v hv
    have hnew : name ∉ run.map Prod.fst := by
      intro hmem
      obtain ⟨c, hc, rfl⟩ := List.mem_map.mp hmem
      rw [(admits_of_mem_takeWhile hc).free] at hv
      cases hv
    have hknown : S.Knows v := by
      refine .name ⟨V, hmem, name.toList, ?_⟩
      rw [Vocabulary.find?, show V.vars.get? name.toList = some v from hv]
      rfl
    exact ⟨(hgained.others name hnew).trans hv, (hread v hknown).2⟩

/-- A host drops `e` from the standard vocabulary. Of the constants `e`, `pi` and `s` the first is
then registered, and `s` is not, although its name is free. -/
theorem register_longest_run_dropped : ∃ (calls : List Call) (V : Vocabulary) (p : PlotFile),
    (Session.start.after calls).library.items[0]? = some V ∧
    p.constants = [("e", 2.0), ("pi", 3.0), ("s", 1.0)] ∧ (p.constants.map Prod.fst).Nodup ∧
    let registered := p.register V (Session.start.after calls).store
    registered.1 = .error (.duplicate .vars "pi") ∧
    registered.2.1.variableNamed? "e" = some ⟨"e", .constant, 4⟩ ∧
    registered.2.2.read ⟨"e", .constant, 4⟩ = 2.0 ∧
    registered.2.1.variableNamed? "pi" = some ⟨"pi", .constant, 0⟩ ∧
    registered.2.1.variableNamed? "s" = none := by
  let calls : List Call := [.move (.create .standard), .move (.edit 0 (.drop "e"))]
  let p : PlotFile :=
    { PlotFile.default with constants := [("e", 2.0), ("pi", 3.0), ("s", 1.0)] }
  have hlibrary : ((Session.start.after calls).library.items[0]?.any fun V =>
      V.Admits "e" ∧ V.variableNamed? "pi" = some ⟨"pi", .constant, 0⟩ ∧
        V.variableNamed? "s" = none) = true := by
    decide +kernel
  obtain ⟨V, hV, hfound⟩ := (Option.any_eq_true _ _).mp hlibrary
  obtain ⟨hadmits, hpi, hs⟩ := of_decide_eq_true hfound
  have hsize : (Session.start.after calls).store.cells.size = 4 := by decide +kernel
  have hnames : (p.constants.map Prod.fst).Nodup := by decide
  have hrun : (p.constants.takeWhile fun c => V.Admits c.1) = [("e", 2.0)] := by
    have hrefused : ¬V.Admits "pi" := by
      intro h
      rw [h.free] at hpi
      cases hpi
    show List.takeWhile _ [("e", 2.0), ("pi", 3.0), ("s", 1.0)] = _
    rw [List.takeWhile_cons, if_pos (decide_eq_true hadmits), List.takeWhile_cons,
      if_neg (decide_eq_true_iff.not.mpr hrefused)]
  obtain ⟨-, hanswer, hnamed, hothers, -, hkept, -⟩ := register_longest_run hV hnames
  rw [hrun, hsize] at hnamed
  rw [hrun] at hanswer hothers
  obtain ⟨he, hread⟩ := hnamed 0 "e" 2.0 rfl
  refine ⟨calls, V, p, hV, rfl, hnames, ?_, he, hread, (hkept "pi" _ hpi).1, ?_⟩
  · exact hanswer "pi" 3.0 [("s", 1.0)] rfl
  · exact (hothers "s" (by decide)).trans hs

end PlotFile

end ImplicitPlot

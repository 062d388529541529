import ImplicitPlot.Proofs.Contour.History
import ImplicitPlot.Proofs.Session.Basic

/-
  References of a session. A call adds references and takes none away: handles, programs and
  tracers stay where they are, and a variable that goes out of its vocabulary becomes a handle
  (`Knows.step`). What a call adds was known before, or is new and in a new cell
  (`Knows.of_step`). Both come from one account of what a call adds (`step_adds`).
-/
namespace ImplicitPlot

open Symbols Expression Contour

/-! ## Lists that grow -/

/-- A list is another with items behind it that have a property. -/
def Grows {α : Type} (P : α → Prop) (as bs : List α) : Prop :=
  ∃ new, bs = as ++ new ∧ ∀ a ∈ new, P a

namespace Grows

variable {α : Type} {P : α → Prop} {as bs : List α} {a : α}

theorem refl (P : α → Prop) (as : List α) : Grows P as as :=
  ⟨[], (List.append_nil as).symm, nofun⟩

theorem toList {o : Option α} (h : ∀ a, o = some a → P a) (as : List α) :
    Grows P as (as ++ o.toList) :=
  ⟨o.toList, rfl, fun a ha => h a (Option.mem_toList.mp ha)⟩

theorem mem (h : Grows P as bs) (ha : a ∈ as) : a ∈ bs := by
  obtain ⟨new, rfl, -⟩ := h
  exact List.mem_append_left new ha

theorem mem_or (h : Grows P as bs) (ha : a ∈ bs) : a ∈ as ∨ P a := by
  obtain ⟨new, rfl, hnew⟩ := h
  obtain hold | ha := List.mem_append.mp ha
  · exact Or.inl hold
  · exact Or.inr (hnew a ha)

theorem getElem? (h : Grows P as bs) {i : Nat} (hi : as[i]? = some a) : bs[i]? = some a := by
  obtain ⟨new, rfl, -⟩ := h
  rw [List.getElem?_append_left (List.getElem?_eq_some_iff.mp hi).1, hi]

end Grows

namespace Session

/-! ## What a call adds -/

/-- What a call adds to a session. New programs and tracers refer to what was there already. -/
structure Adds (S : Session) (c : Call) (T : Session) : Prop where
  handles : Grows (fun v => S.library.Has v ∨ T.library.Has v) S.handles T.handles
  programs : Grows (fun p => ∀ v ∈ loads p.code, S.library.Has v) S.programs T.programs
  axes : Grows (fun axes => axes.x ∈ S.handles ∧ axes.y ∈ S.handles) S.axes T.axes
  library : T.library.items = S.library.items ∨
    ∃ m, c = .move m ∧ T.library = (S.library.move m).2
  kept : ∀ v, S.library.Has v → T.library.Has v ∨ v ∈ T.handles

variable {S : Session} {v : Variable}

/-- A call that makes nothing. -/
theorem Adds.of_same {T : Session} {c : Call} (hitems : T.library.items = S.library.items)
    (hhandles : T.handles = S.handles) (hprograms : T.programs = S.programs)
    (haxes : T.axes = S.axes) : S.Adds c T where
  handles := by
    rw [hhandles]
    exact .refl _ S.handles
  programs := by
    rw [hprograms]
    exact .refl _ S.programs
  axes := by
    rw [haxes]
    exact .refl _ S.axes
  library := Or.inl hitems
  kept v hv := by
    refine Or.inl ?_
    rw [Library.Has, hitems]
    exact hv

theorem move_adds (hS : S.library.InOrder) (m : Move) :
    S.Adds (.move m) (S.step (.move m)) where
  handles := by
    refine .toList ?_ S.handles
    intro v hv
    obtain ⟨answer, hanswer, hhandle⟩ := Option.bind_eq_some_iff.mp hv
    match answer with
    | .entered (.var w) =>
      cases hhandle
      exact Or.inr (Library.of_entered hS hanswer).1
    | .dropped w =>
      cases hhandle
      exact Or.inl (Library.has_of_dropped hS hanswer)
    | .entered (.operator op) | .refused e | .absent => cases hhandle
  programs := .refl _ S.programs
  axes := .refl _ S.axes
  library := Or.inr ⟨m, rfl, rfl⟩
  kept v hv := by
    obtain hstill | hdropped := hv.move hS m
    · exact Or.inl hstill
    · refine Or.inr (List.mem_append_right S.handles ?_)
      rw [hdropped]
      exact List.mem_singleton_self v

theorem look_adds (S : Session) (i : Nat) (name : String) :
    S.Adds (.look i name) (S.step (.look i name)) where
  handles := by
    refine .toList ?_ S.handles
    intro v hv
    obtain ⟨V, hV, hname⟩ := Option.bind_eq_some_iff.mp hv
    have hfind : V.find? .vars name.toList = some (.var v) := congrArg (Option.map Entry.var) hname
    exact Or.inl ⟨V, List.mem_of_getElem? hV, name.toList, hfind⟩
  programs := .refl _ S.programs
  axes := .refl _ S.axes
  library := Or.inl rfl
  kept _ hv := Or.inl hv

/-- What a text is compiled to refers to variables that its vocabulary has. -/
theorem has_of_program? {i : Nat} {source : Source} {p : Program}
    (hp : S.program? i source = some p) (hv : v ∈ loads p.code) : S.library.Has v := by
  obtain ⟨V, hV, hprogram⟩ := Option.bind_eq_some_iff.mp hp
  rw [Source.loads_of_program? hprogram] at hv
  obtain ⟨⟨name, w⟩, htoken, rfl⟩ := List.mem_map.mp hv
  exact ⟨V, List.mem_of_getElem? hV, name, Source.find?_of_mem_tokens htoken⟩

theorem compile_adds (S : Session) (i : Nat) (source : Source) :
    S.Adds (.compile i source) (S.step (.compile i source)) where
  handles := .refl _ S.handles
  programs := .toList (fun _ hp _ hv => has_of_program? hp hv) S.programs
  axes := .refl _ S.axes
  library := Or.inl rfl
  kept _ hv := Or.inl hv

theorem equip_adds (S : Session) (n m : Nat) (resolution : Resolution) :
    S.Adds (.equip n m resolution) (S.step (.equip n m resolution)) where
  handles := .refl _ S.handles
  programs := .refl _ S.programs
  axes := by
    have hnew : (S.step (.equip n m resolution)).axes =
        S.axes ++ ((S.tracer? n m resolution).map (·.axes)).toList := by
      rw [axes, step, List.map_append, Option.toList_map]
      rfl
    rw [hnew]
    refine .toList ?_ S.axes
    intro a ha
    obtain ⟨t, ht, rfl⟩ := Option.map_eq_some_iff.mp ha
    obtain ⟨x, hx, ht⟩ := Option.bind_eq_some_iff.mp ht
    obtain ⟨y, hy, ht⟩ := Option.bind_eq_some_iff.mp ht
    cases hnew : Tracer.new ⟨x, y⟩ resolution with
    | error e =>
      rw [hnew] at ht
      cases ht
    | ok t' =>
      rw [hnew] at ht
      cases ht
      rw [(Tracer.Used.new hnew).settings.1]
      exact ⟨List.mem_of_getElem? hx, List.mem_of_getElem? hy⟩
  library := Or.inl rfl
  kept _ hv := Or.inl hv

theorem trace_adds (S : Session) (j : Nat) (r : Relation) (canvas : Canvas) :
    S.Adds (.trace j r canvas) (S.step (.trace j r canvas)) := by
  rw [step]
  cases hj : S.tracers[j]? with
  | none => exact .of_same rfl rfl rfl rfl
  | some t =>
    refine .of_same rfl rfl rfl ?_
    obtain ⟨hlt, hget⟩ := List.getElem?_eq_some_iff.mp hj
    have hself : S.tracers.set j t = S.tracers := by
      rw [← hget]
      exact List.set_getElem_self hlt
    show (S.tracers.set j (t.trace S.store r canvas).tracer).map (·.axes) = S.axes
    rw [List.map_set, (t.trace_settings S.store r canvas).1, ← List.map_set, hself]
    rfl

/-- What a call can add. -/
theorem step_adds (hS : S.library.InOrder) (c : Call) : S.Adds c (S.step c) := by
  cases c with
  | move m => exact move_adds hS m
  | look i name => exact S.look_adds i name
  | compile i source => exact S.compile_adds i source
  | equip n m resolution => exact S.equip_adds n m resolution
  | trace j r canvas => exact S.trace_adds j r canvas
  | set n x =>
    rw [step]
    cases S.handles[n]? with
    | none => exact .of_same rfl rfl rfl rfl
    | some v => exact .of_same rfl rfl rfl rfl
  | evaluate k =>
    rw [step]
    cases S.programs[k]? with
    | none => exact .of_same rfl rfl rfl rfl
    | some p => exact .of_same rfl rfl rfl rfl

/-! ## References -/

/-- No reference is lost. -/
theorem Knows.step (h : S.Knows v) (hS : S.library.InOrder) (c : Call) : (S.step c).Knows v := by
  have hadds := step_adds hS c
  cases h with
  | handle h => exact .handle (hadds.handles.mem h)
  | load hp h => exact .load (hadds.programs.mem hp) h
  | axis haxes h => exact .axis (hadds.axes.mem haxes) h
  | name h =>
    obtain hstill | hhandle := hadds.kept v h
    · exact .name hstill
    · exact .handle hhandle

/-- A reference that is there after a call was there before, or is to a variable that the call
brought in. -/
theorem Knows.of_step {c : Call} (h : (S.step c).Knows v) (hS : S.library.InOrder) :
    S.Knows v ∨ ∃ m x, c = .move m ∧ (v, x) ∈ m.newCells S.store.cells.size ∧
      v.cell < (S.step c).store.cells.size := by
  have hadds := step_adds hS c
  have hname : (S.step c).library.Has v → S.Knows v ∨ ∃ m x, c = .move m ∧
      (v, x) ∈ m.newCells S.store.cells.size ∧ v.cell < (S.step c).store.cells.size := by
    intro hhas
    obtain hitems | ⟨m, hc, hmove⟩ := hadds.library
    · rw [Library.Has, hitems] at hhas
      exact Or.inl (.name hhas)
    · rw [hmove] at hhas
      obtain hold | ⟨x, hx, hcell⟩ := hhas.of_move hS
      · exact Or.inl (.name hold)
      · refine Or.inr ⟨m, x, hc, hx, ?_⟩
        rw [store, hmove]
        exact hcell
  cases h with
  | handle h =>
    obtain hold | hhas | hhas := hadds.handles.mem_or h
    · exact Or.inl (.handle hold)
    · exact Or.inl (.name hhas)
    · exact hname hhas
  | name h => exact hname h
  | load hp h =>
    obtain hold | hhas := hadds.programs.mem_or hp
    · exact Or.inl (.load hold h)
    · exact Or.inl (.name (hhas v h))
  | axis haxes h =>
    obtain hold | ⟨hx, hy⟩ := hadds.axes.mem_or haxes
    · exact Or.inl (.axis hold h)
    · obtain rfl | rfl := h
      · exact Or.inl (.handle hx)
      · exact Or.inl (.handle hy)

end Session

end ImplicitPlot

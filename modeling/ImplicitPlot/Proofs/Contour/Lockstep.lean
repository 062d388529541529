import ImplicitPlot.Proofs.Contour.Passes

/-
  Two runs of one pass side by side. `Pass.Lockstep x R` says that from frames with `R` both runs
  of `x` go through or both fail with the same error, and again end in frames with `R`. There is
  one rule for each way in which passes are built.

  A trace looks at its frame in three places: it takes the signs of corners and the marks of fine
  points from the lattice, and a sample reads the store. If `R` forces the lattices to be equal,
  the runs take the same turns; so `R` is kept by a whole trace once samples, marches and the count
  of refined cells keep it (`Job.Keeps.run`).
-/
namespace ImplicitPlot.Contour

open Symbols Expression

/-! ## Passes -/

/-- Two runs went through, or failed with the same error, and their last frames are related. -/
inductive Pass.Alike (R : Frame → Frame → Prop) :
    EStateM.Result EvalError Frame Unit → EStateM.Result EvalError Frame Unit → Prop where
  | ok {F G : Frame} (h : R F G) : Alike R (.ok () F) (.ok () G)
  | error {e : EvalError} {F G : Frame} (h : R F G) : Alike R (.error e F) (.error e G)

/-- From related frames a pass ends alike. -/
def Pass.Lockstep (x : Pass) (R : Frame → Frame → Prop) : Prop :=
  ∀ F G, R F G → Pass.Alike R (x F) (x G)

namespace Pass

variable {R : Frame → Frame → Prop}

theorem Lockstep.seq {x y : Pass} (hx : x.Lockstep R) (hy : y.Lockstep R) :
    Pass.Lockstep (x >>= fun _ => y) R := by
  intro F G hFG
  show Alike R (EStateM.bind x (fun _ => y) F) (EStateM.bind x (fun _ => y) G)
  unfold EStateM.bind
  have hend := hx F G hFG
  generalize x F = end₁, x G = end₂ at hend
  cases hend with
  | ok h => exact hy _ _ h
  | error h => exact .error h

theorem Lockstep.forM {α : Type} {body : α → Pass} {l : List α}
    (h : ∀ x ∈ l, (body x).Lockstep R) : Pass.Lockstep (l.forM body) R := by
  induction l with
  | nil => exact fun F G hFG => .ok hFG
  | cons x rest ih =>
    show Pass.Lockstep (body x >>= fun _ => rest.forM body) R
    exact (h x List.mem_cons_self).seq (ih fun y hy => h y (List.mem_cons_of_mem x hy))

end Pass

/-! ## Jobs -/

namespace Job

/-- The frame after the axes were moved to a point of the lattice and the program was run. -/
def moveTo (j : Job) (row col : Nat) (F : Frame) : Frame :=
  let store := j.axes.set F.store (j.pointAt row col).x (j.pointAt row col).y
  { F with store, machine := (F.machine.evaluate store j.program).2 }

theorem sample_apply (j : Job) (row col : Nat) (F : Frame) :
    j.sample row col F =
      match j.program.value (j.axes.set F.store (j.pointAt row col).x (j.pointAt row col).y) with
      | .ok x => .ok () (j.enter row col x F)
      | .error e => .error e (j.moveTo row col F) := by
  rw [← Machine.evaluate_fst F.machine]
  unfold sample enter moveTo
  dsimp only
  rcases F.machine.evaluate (j.axes.set F.store (j.pointAt row col).x (j.pointAt row col).y)
    j.program with ⟨x | e, m⟩ <;> rfl

theorem sample_lockstep {j : Job} {R : Frame → Frame → Prop} {row col : Nat}
    (hvalue : ∀ F G, R F G →
      j.program.value (j.axes.set F.store (j.pointAt row col).x (j.pointAt row col).y) =
        j.program.value (j.axes.set G.store (j.pointAt row col).x (j.pointAt row col).y))
    (henter : ∀ x F G, R F G → R (j.enter row col x F) (j.enter row col x G))
    (hmove : ∀ F G, R F G → R (j.moveTo row col F) (j.moveTo row col G)) :
    (j.sample row col).Lockstep R := by
  intro F G hFG
  rw [sample_apply, sample_apply, hvalue F G hFG]
  split
  · exact .ok (henter _ F G hFG)
  · exact .error (hmove F G hFG)

/-- A relation of frames that the parts of a trace keep, and in which the lattices are equal. -/
structure Keeps (j : Job) (R : Frame → Frame → Prop) : Prop where
  lattice_eq : ∀ F G, R F G → F.lattice = G.lattice
  sample : ∀ row col, (j.sample row col).Lockstep R
  draw : ∀ row col F G, R F G → R (j.draw row col F) (j.draw row col G)
  countRefined : ∀ F G, R F G → R (Job.countRefined F) (Job.countRefined G)

namespace Keeps

variable {j : Job} {R : Frame → Frame → Prop}

theorem sampleOnce (h : j.Keeps R) (row col : Nat) : (j.sampleOnce row col).Lockstep R := by
  intro F G hFG
  rw [sampleOnce_apply, sampleOnce_apply, h.lattice_eq F G hFG]
  split
  · exact .ok hFG
  · exact h.sample row col F G hFG

theorem closeCell (h : j.Keeps R) (row col fineRow fineCol : Nat) :
    (j.closeCell row col fineRow fineCol).Lockstep R := by
  intro F G hFG
  unfold Job.closeCell
  by_cases hborder : fineRow = row ∨ fineCol = col
  · rw [if_pos hborder]
    exact .ok hFG
  · rw [if_neg hborder, march_apply, march_apply]
    exact .ok (h.draw _ _ F G hFG)

theorem refine (h : j.Keeps R) (row col : Nat) : (j.refine row col).Lockstep R := by
  refine Pass.Lockstep.forM fun fineRow _ => Pass.Lockstep.forM fun fineCol _ => ?_
  rw [visit_eq]
  exact (h.sampleOnce fineRow fineCol).seq (h.closeCell row col fineRow fineCol)

theorem inspect (h : j.Keeps R) (row col : Nat) : (j.inspect row col).Lockstep R := by
  intro F G hFG
  rw [inspect_apply, inspect_apply, h.lattice_eq F G hFG]
  split
  · exact h.refine row col _ _ (h.countRefined F G hFG)
  · exact .ok hFG

/-- A whole trace keeps what its parts keep. -/
theorem run (h : j.Keeps R) (rows cols : Nat) : (j.run rows cols).Lockstep R := by
  refine Pass.Lockstep.seq ?_ ?_
  · exact Pass.Lockstep.forM fun row _ => Pass.Lockstep.forM fun col _ => h.sample row col
  · exact Pass.Lockstep.forM fun row _ => Pass.Lockstep.forM fun col _ => h.inspect row col

end Keeps

end Job

end ImplicitPlot.Contour

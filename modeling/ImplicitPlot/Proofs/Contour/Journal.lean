import ImplicitPlot.Proofs.Contour.Tracing

/-
  Traces that keep a journal. The journal of a trace lists the points at which the program was
  evaluated, the points of the lattice whose value was looked up or entered, and the coarse cells
  that were inspected, each in the order in which that happened. The passes with a journal are
  built like those without one, and a trace that forgets its journal is the trace
  (`forget_run`), so the journal says what the trace itself did.

  `JournalPass.Leads y P Q E` says what holds after `y` went through and what holds after it
  failed. There is one rule for each way in which passes are built.
-/
namespace ImplicitPlot.Contour

open Symbols Expression

/-- What a trace did at the points of its lattice, in order. -/
structure Journal where
  /-- The points at which the program was evaluated. -/
  evaluated : List (Nat × Nat)
  /-- The points whose value was looked up or entered. -/
  touched : List (Nat × Nat)
  /-- The coarse cells that were inspected. -/
  inspected : List (Nat × Nat)

namespace Journal

def empty : Journal := ⟨[], [], []⟩

/-- The program is evaluated at a point, and its value is entered there. -/
def evaluate (l : Journal) (p : Nat × Nat) : Journal :=
  { l with evaluated := l.evaluated ++ [p], touched := l.touched ++ [p] }

/-- The values of some points are looked up. -/
def look (l : Journal) (points : List (Nat × Nat)) : Journal :=
  { l with touched := l.touched ++ points }

/-- A coarse cell is inspected. -/
def inspect (l : Journal) (cell : Nat × Nat) : Journal :=
  { l with inspected := l.inspected ++ [cell] }

end Journal

/-- The points at the corners of the cell of `size` points from a point to the right and down. -/
def cornerPoints (row col size : Nat) : List (Nat × Nat) :=
  [(row, col), (row, col + size), (row + size, col), (row + size, col + size)]

/-- A part of a trace that keeps a journal. -/
abbrev JournalPass := EStateM EvalError (Frame × Journal) Unit

/-- A pass after which an entry is made in the journal. -/
def Pass.journaled (x : Pass) (entry : Journal → Journal) : JournalPass := fun (F, l) =>
  match x F with
  | .ok () F' => .ok () (F', entry l)
  | .error e F' => .error e (F', entry l)

/-! ## The passes of a trace with a journal -/

namespace Job.Journaled

def sample (j : Job) (row col : Nat) : JournalPass :=
  (j.sample row col).journaled (·.evaluate (row, col))

/-- A sample, unless the fine point has a value; to see that, the value is looked up. -/
def sampleOnce (j : Job) (row col : Nat) : JournalPass := fun (F, l) =>
  let l := l.look [(row, col)]
  if F.lattice.isSampled row col then .ok () (F, l) else sample j row col (F, l)

/-- Draw the fine cell that ends at a fine point, unless that lies on the border. -/
def closeCell (j : Job) (row col fineRow fineCol : Nat) : JournalPass :=
  if fineRow = row ∨ fineCol = col then pure ()
  else (j.march (fineRow - 1) (fineCol - 1)).journaled
    (·.look (cornerPoints (fineRow - 1) (fineCol - 1) 1))

def visit (j : Job) (row col fineRow fineCol : Nat) : JournalPass := do
  sampleOnce j fineRow fineCol
  closeCell j row col fineRow fineCol

def refine (j : Job) (row col : Nat) : JournalPass :=
  (blockPoints j.resolution.refinement row col).forM fun p => visit j row col p.1 p.2

def inspect (j : Job) (row col : Nat) : JournalPass := fun (F, l) =>
  let l := (l.inspect (row, col)).look (cornerPoints row col j.resolution.refinement)
  if (F.lattice.corners row col j.resolution.refinement).isCrossed then
    refine j row col (countRefined F, l)
  else .ok () (F, l)

def coarse (j : Job) (rows cols : Nat) : JournalPass :=
  (coarsePoints j.resolution.refinement rows cols).forM fun p => sample j p.1 p.2

def contour (j : Job) (rows cols : Nat) : JournalPass :=
  let r := j.resolution.refinement
  ((multiples r (rows - r)).product (multiples r (cols - r))).forM fun p => inspect j p.1 p.2

def run (j : Job) (rows cols : Nat) : JournalPass := do
  coarse j rows cols
  contour j rows cols

end Job.Journaled

/-- The journal of a trace over a lattice of some rows and columns, also if the trace fails. -/
def Job.journal (j : Job) (rows cols : Nat) (F : Frame) : Journal :=
  match Journaled.run j rows cols (F, .empty) with
  | .ok () s => s.2
  | .error _ s => s.2

/-! ## Forgetting the journal -/

namespace JournalPass

/-- What came of a pass, without the journal. -/
def forget : EStateM.Result EvalError (Frame × Journal) Unit → EStateM.Result EvalError Frame Unit
  | .ok () s => .ok () s.1
  | .error e s => .error e s.1

/-- A pass with a journal does what a pass does. -/
def Follows (y : JournalPass) (x : Pass) : Prop := ∀ s, forget (y s) = x s.1

theorem follows_journaled (x : Pass) (entry : Journal → Journal) :
    Follows (x.journaled entry) x := by
  rintro ⟨F, l⟩
  unfold Pass.journaled
  dsimp only
  cases x F <;> rfl

theorem Follows.seq {y y' : JournalPass} {x x' : Pass} (h : y.Follows x) (h' : y'.Follows x') :
    Follows (y >>= fun _ => y') (x >>= fun _ => x') := by
  intro s
  have hs := h s
  show forget (EStateM.bind y (fun _ => y') s) = EStateM.bind x (fun _ => x') s.1
  unfold EStateM.bind
  rw [← hs]
  cases y s with
  | ok u s' => exact h' s'
  | error e s' => rfl

theorem Follows.forM {α : Type} {body : α → JournalPass} {body' : α → Pass} (l : List α)
    (h : ∀ a, (body a).Follows (body' a)) : Follows (l.forM body) (l.forM body') := by
  induction l with
  | nil => exact fun _ => rfl
  | cons a l ih =>
    show Follows (body a >>= fun _ => l.forM body) (body' a >>= fun _ => l.forM body')
    exact (h a).seq ih

end JournalPass

namespace Job.Journaled

open JournalPass

theorem follows_sampleOnce (j : Job) (row col : Nat) :
    (sampleOnce j row col).Follows (j.sampleOnce row col) := by
  rintro ⟨F, l⟩
  rw [sampleOnce_apply]
  unfold sampleOnce
  dsimp only
  split
  · rfl
  · exact follows_journaled _ _ _

theorem follows_closeCell (j : Job) (row col fineRow fineCol : Nat) :
    (closeCell j row col fineRow fineCol).Follows (j.closeCell row col fineRow fineCol) := by
  unfold closeCell Job.closeCell
  by_cases hborder : fineRow = row ∨ fineCol = col
  · rw [if_pos hborder, if_pos hborder]
    exact fun _ => rfl
  · rw [if_neg hborder, if_neg hborder]
    exact follows_journaled _ _

theorem follows_refine (j : Job) (row col : Nat) :
    (refine j row col).Follows (j.refine row col) := by
  rw [refine_eq]
  refine Follows.forM _ fun p => ?_
  rw [visit_eq]
  exact (follows_sampleOnce j p.1 p.2).seq (follows_closeCell j row col p.1 p.2)

theorem follows_inspect (j : Job) (row col : Nat) :
    (inspect j row col).Follows (j.inspect row col) := by
  rintro ⟨F, l⟩
  rw [inspect_apply]
  unfold inspect
  dsimp only
  split
  · exact follows_refine j row col _
  · rfl

/-- A trace that forgets its journal is the trace. -/
theorem forget_run (j : Job) (rows cols : Nat) (F : Frame) (l : Journal) :
    forget (run j rows cols (F, l)) = j.run rows cols F := by
  have hcoarse : (coarse j rows cols).Follows (j.coarse rows cols) := by
    rw [coarse_eq]
    exact Follows.forM _ fun p => follows_journaled _ _
  have hcontour : (contour j rows cols).Follows (j.contour rows cols) := by
    have hloop : j.contour rows cols =
        ((multiples j.resolution.refinement (rows - j.resolution.refinement)).product
          (multiples j.resolution.refinement (cols - j.resolution.refinement))).forM fun p =>
            j.inspect p.1 p.2 := forM_product _ _ _
    rw [hloop]
    exact Follows.forM _ fun p => follows_inspect j p.1 p.2
  exact hcoarse.seq hcontour (F, l)

/-- A trace that goes through also goes through with a journal. -/
theorem run_eq_ok {j : Job} {rows cols : Nat} {F F' : Frame}
    (h : j.run rows cols F = .ok () F') :
    run j rows cols (F, .empty) = .ok () (F', j.journal rows cols F) := by
  have hforget := forget_run j rows cols F .empty
  unfold Job.journal
  rw [h] at hforget
  cases hrun : run j rows cols (F, .empty) with
  | ok u s =>
    rw [hrun] at hforget
    cases hforget
    rfl
  | error e s =>
    rw [hrun] at hforget
    cases hforget

end Job.Journaled

/-! ## What holds after a pass -/

namespace JournalPass

/-- A pass went through and ended with `Q`, or it failed and ended with `E`. -/
inductive Ends (Q E : Frame × Journal → Prop) :
    EStateM.Result EvalError (Frame × Journal) Unit → Prop where
  | ok {s : Frame × Journal} (h : Q s) : Ends Q E (.ok () s)
  | error {e : EvalError} {s : Frame × Journal} (h : E s) : Ends Q E (.error e s)

/-- From a frame and a journal with `P`, a pass that goes through ends with `Q`, and one that fails
ends with `E`. -/
def Leads (y : JournalPass) (P Q E : Frame × Journal → Prop) : Prop := ∀ s, P s → Ends Q E (y s)

variable {P Q R E : Frame × Journal → Prop}

theorem Leads.seq {y y' : JournalPass} (h : y.Leads P Q E) (h' : y'.Leads Q R E) :
    Leads (y >>= fun _ => y') P R E := by
  intro s hs
  have hend := h s hs
  show Ends R E (EStateM.bind y (fun _ => y') s)
  unfold EStateM.bind
  generalize y s = result at hend
  cases hend with
  | ok hQ => exact h' _ hQ
  | error hE => exact .error hE

/-- Along a list, what holds of the part that is done goes on to hold with one more entry. -/
theorem leads_forM {α : Type} {body : α → JournalPass} {I : List α → Frame × Journal → Prop}
    (l : List α)
    (hbody : ∀ done x rest, l = done ++ x :: rest → (body x).Leads (I done) (I (done ++ [x])) E) :
    Leads (l.forM body) (I []) (I l) E := by
  suffices h : ∀ rest done, l = done ++ rest → Leads (rest.forM body) (I done) (I l) E from
    h l [] rfl
  intro rest
  induction rest with
  | nil =>
    intro done hl s hs
    rw [List.append_nil] at hl
    exact .ok (hl ▸ hs)
  | cons x rest ih =>
    intro done hl
    show Leads (body x >>= fun _ => rest.forM body) _ _ _
    exact (hbody done x rest hl).seq (ih (done ++ [x]) (by rw [hl, List.append_assoc]; rfl))

theorem Leads.forM {α : Type} {body : α → JournalPass} {l : List α}
    (h : ∀ x ∈ l, (body x).Leads P P E) : Leads (l.forM body) P P E :=
  leads_forM (I := fun _ => P) l fun _ x _ hl => h x (mem_of_split hl)

/-- What is known of the journal alone depends on the entry that is made, not on the pass. -/
theorem leads_journaled {I J : Journal → Prop} (x : Pass) {entry : Journal → Journal}
    (h : ∀ l, I l → J (entry l)) (hE : ∀ s, J s.2 → E s) :
    Leads (x.journaled entry) (fun s => I s.2) (fun s => J s.2) E := by
  rintro ⟨F, l⟩ hl
  unfold Pass.journaled
  dsimp only
  cases x F with
  | ok u F' => exact .ok (h l hl)
  | error e F' => exact .error (hE _ (h l hl))

end JournalPass

end ImplicitPlot.Contour

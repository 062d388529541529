import ImplicitPlot.Proofs.Contour.Passes
import Mathlib.Data.List.ProdSigma
import Mathlib.Data.List.Sort

/-
  The order in which a trace visits points. Its loops go through rows and, in each row, through
  columns; two such loops are one loop over pairs in row-major order (`forM_product`). A list in
  that order is known from its entries alone (`eq_of_rowMajor`), and at each entry everything
  before it has been visited (`mem_of_before`).
-/
namespace ImplicitPlot.Contour

/-- A point in a row above, or in the same row further to the left. -/
def Before (p q : Nat × Nat) : Prop := p.1 < q.1 ∨ p.1 = q.1 ∧ p.2 < q.2

theorem Before.irrefl (p : Nat × Nat) : ¬Before p p := by
  unfold Before
  omega

theorem Before.asymm {p q : Nat × Nat} (h : Before p q) : ¬Before q p := by
  unfold Before at *
  omega

instance : Std.Irrefl Before := ⟨Before.irrefl⟩

instance : Std.Antisymm Before := ⟨fun _ _ h h' => absurd h' h.asymm⟩

/-- The points of a list come in row-major order, each of them once. -/
def RowMajor (l : List (Nat × Nat)) : Prop := l.Pairwise Before

theorem rowMajor_product {rows cols : List Nat} (hrows : rows.Pairwise (· < ·))
    (hcols : cols.Pairwise (· < ·)) : RowMajor (rows.product cols) := by
  unfold RowMajor List.product
  rw [List.pairwise_flatMap]
  refine ⟨fun row _ => ?_, hrows.imp fun hlt p hp q hq => ?_⟩
  · rw [List.pairwise_map]
    exact hcols.imp fun hlt => Or.inr ⟨rfl, hlt⟩
  · obtain ⟨col, -, rfl⟩ := List.mem_map.mp hp
    obtain ⟨col', -, rfl⟩ := List.mem_map.mp hq
    exact Or.inl hlt

theorem RowMajor.filter {l : List (Nat × Nat)} (h : RowMajor l) (p : Nat × Nat → Bool) :
    RowMajor (l.filter p) :=
  List.Pairwise.filter p h

/-- Two lists in row-major order with the same points are equal. -/
theorem eq_of_rowMajor {l l' : List (Nat × Nat)} (hl : RowMajor l) (hl' : RowMajor l')
    (h : ∀ row col, (row, col) ∈ l ↔ (row, col) ∈ l') : l = l' :=
  hl.eq_of_mem_iff hl' fun p => h p.1 p.2

theorem mem_of_split {α : Type} {l before after : List α} {x : α}
    (hsplit : l = before ++ x :: after) : x ∈ l := by
  rw [hsplit]
  exact List.mem_append_right before List.mem_cons_self

/-- What comes before a point of a list in row-major order is in the part before it. -/
theorem mem_of_before {l before after : List (Nat × Nat)} {p q : Nat × Nat} (hl : RowMajor l)
    (hsplit : l = before ++ p :: after) (hq : q ∈ l) (hqp : Before q p) : q ∈ before := by
  subst hsplit
  rcases List.mem_append.mp hq with hq | hq
  · exact hq
  · have hrest : RowMajor (p :: after) := List.Pairwise.sublist (List.sublist_append_right _ _) hl
    rcases List.mem_cons.mp hq with rfl | hq
    · exact absurd hqp (Before.irrefl q)
    · exact absurd (List.rel_of_pairwise_cons hrest hq) hqp.asymm

theorem before_of_mem {l before after : List (Nat × Nat)} {p q : Nat × Nat} (hl : RowMajor l)
    (hsplit : l = before ++ p :: after) (hq : q ∈ before) : Before q p := by
  subst hsplit
  exact (List.pairwise_append.mp hl).2.2 q hq p List.mem_cons_self

theorem forM_product {α β : Type} (rows : List α) (cols : List β) (body : α → β → Pass) :
    (rows.forM fun row => cols.forM fun col => body row col) =
      (rows.product cols).forM fun p => body p.1 p.2 := by
  induction rows with
  | nil => rfl
  | cons row rows ih =>
    have hrow : (cols.map (Prod.mk row)).forM (fun p => body p.1 p.2) = cols.forM (body row) :=
      List.forM_map
    show (cols.forM (body row) >>= fun _ => rows.forM _) = _
    rw [ih, ← hrow]
    exact List.forM_append.symm

/-! ## Multiples -/

theorem mem_multiples {step bound x : Nat} (h : 0 < step) :
    x ∈ multiples step bound ↔ step ∣ x ∧ x < bound := by
  unfold multiples
  rw [List.mem_range']
  constructor
  · rintro ⟨i, hi, rfl⟩
    rw [Nat.zero_add]
    refine ⟨Nat.dvd_mul_right step i, ?_⟩
    have hle : (i + 1) * step ≤ bound + step - 1 := (Nat.le_div_iff_mul_le h).mp hi
    rw [Nat.add_mul, Nat.one_mul, Nat.mul_comm] at hle
    omega
  · rintro ⟨⟨i, rfl⟩, hlt⟩
    refine ⟨i, ?_, by rw [Nat.zero_add]⟩
    refine (Nat.le_div_iff_mul_le h).mpr ?_
    rw [Nat.succ_mul, Nat.mul_comm]
    omega

theorem pairwise_multiples {step : Nat} (h : 0 < step) (bound : Nat) :
    (multiples step bound).Pairwise (· < ·) :=
  List.pairwise_lt_range' step h

end ImplicitPlot.Contour

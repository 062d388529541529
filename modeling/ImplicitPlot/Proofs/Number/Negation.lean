import ImplicitPlot.Proofs.Number.Order

/-
  Negation of doubles. It is exact, and the other operations respect it: a product has the sign of
  its factors (`float_neg_mul`), a quotient of negated doubles is the quotient
  (`float_neg_div_neg`), and a difference that is not zero is negated with its terms
  (`float_neg_sub_neg`) or by exchanging them (`float_sub_comm`). A difference that is zero has the
  positive sign in either order.
-/
namespace ImplicitPlot.Number

open Float.Model (Format UnpackedFloat)
open Float.Model.UnpackedFloat

/-! ## Packing -/

theorem unpack_packComponents_neg (s : Sign) (e : BitVec Format.binary64.exponentBits)
    (m : BitVec Format.binary64.mantissaBitsWithoutImplicit) :
    unpack .binary64 (packComponents .binary64 (-s) e m) =
      (unpack .binary64 (packComponents .binary64 s e m)).neg := by
  unfold unpack
  simp only [unpackMantissa_packComponents, unpackExponent_packComponents,
    unpackSign_packComponents, ofBitVec_toBitVec]
  split
  · split <;> rfl
  · split
    · split <;> rfl
    · rfl

/-- Packing keeps a sign apart from everything else. -/
theorem unpack_pack_neg (u : UnpackedFloat) :
    unpack .binary64 (pack .binary64 u.neg) = (unpack .binary64 (pack .binary64 u)).neg := by
  cases u with
  | notANumber => rfl
  | infinity s => exact unpack_packComponents_neg s _ _
  | zero s => exact unpack_packComponents_neg s _ _
  | finite s m e hm =>
    show unpack .binary64 (pack .binary64 (.finite (-s) m e hm)) = _
    unfold pack
    dsimp only
    split
    · exact unpack_packComponents_neg s _ _
    · split <;> exact unpack_packComponents_neg s _ _

/-! ## Operations before packing -/

theorem Sign.neg_mul (s t : Sign) : -s * t = -(s * t) := by cases s <;> cases t <;> rfl

theorem Sign.neg_div_neg (s t : Sign) : -s / -t = s / t := by cases s <;> cases t <;> rfl

theorem roundWithAccuracy_neg (s : Sign) (m : ℕ) (e : ℤ) (accuracy : Accuracy) :
    roundWithAccuracy .binary64 (-s) m e accuracy =
      (roundWithAccuracy .binary64 s m e accuracy).neg := by
  unfold roundWithAccuracy
  dsimp only
  split <;> rfl

theorem mul_neg_left (a b : UnpackedFloat) :
    UnpackedFloat.mul .binary64 a.neg b = (UnpackedFloat.mul .binary64 a b).neg := by
  cases a <;> cases b <;>
    simp only [UnpackedFloat.neg, UnpackedFloat.mul, Sign.neg_mul, roundWithAccuracy_neg]

theorem div_neg_neg (a b : UnpackedFloat) :
    UnpackedFloat.div .binary64 a.neg b.neg = UnpackedFloat.div .binary64 a b := by
  cases a <;> cases b <;> simp only [UnpackedFloat.neg, UnpackedFloat.div, Sign.neg_div_neg]

/-- One of the two zeros. -/
def IsZero : UnpackedFloat → Prop
  | .zero _ => True
  | .finite _ _ _ _ | .infinity _ | .notANumber => False

theorem normalize_neg {k : ℤ} {e : ℤ} {s : Sign} (h : ¬IsZero (normalize .binary64 k e s)) :
    normalize .binary64 (-k) e s = (normalize .binary64 k e s).neg := by
  have hround : ∀ (t : Sign) (n : ℕ), UnpackedFloat.round .binary64 (-t) n e =
      (UnpackedFloat.round .binary64 t n e).neg := fun t n => roundWithAccuracy_neg t _ _ _
  rcases lt_trichotomy k 0 with hk | rfl | hk
  · have hpos : compare (-k) 0 = .gt := Int.compare_eq_gt.mpr (by omega)
    have hneg : compare k 0 = .lt := Int.compare_eq_lt.mpr hk
    unfold UnpackedFloat.normalize
    rw [hpos, hneg]
    exact hround .negative _
  · exact absurd trivial h
  · have hneg : compare (-k) 0 = .lt := Int.compare_eq_lt.mpr (by omega)
    have hpos : compare k 0 = .gt := Int.compare_eq_gt.mpr hk
    unfold UnpackedFloat.normalize
    rw [hpos, hneg, neg_neg]
    exact hround .positive _

theorem Sign.apply_neg (s : Sign) (n : ℤ) : (-s).apply n = -s.apply n := by
  cases s
  · exact (neg_neg n).symm
  · rfl

/-- Both terms of a difference are negated. -/
theorem sub_neg_neg {a b : UnpackedFloat} (h : ¬IsZero (UnpackedFloat.sub .binary64 a b)) :
    UnpackedFloat.sub .binary64 a.neg b.neg = (UnpackedFloat.sub .binary64 a b).neg := by
  cases a with
  | notANumber => rfl
  | infinity s =>
    cases b with
    | infinity t => cases s <;> cases t <;> rfl
    | _ => rfl
  | zero s =>
    cases b with
    | zero t => exact absurd (by cases s <;> cases t <;> trivial) h
    | _ => rfl
  | finite s m e hm =>
    cases b with
    | finite t n f hn =>
      simp only [UnpackedFloat.sub, UnpackedFloat.neg] at h ⊢
      refine Eq.trans ?_ (normalize_neg h)
      rw [Sign.apply_neg, Sign.apply_neg, neg_sub_neg, neg_sub]
    | _ => rfl

/-- The terms of a difference are exchanged. -/
theorem sub_exchange {a b : UnpackedFloat} (h : ¬IsZero (UnpackedFloat.sub .binary64 a b)) :
    UnpackedFloat.sub .binary64 b a = (UnpackedFloat.sub .binary64 a b).neg := by
  have hsign : ∀ s : Sign, - -s = s := fun s => by cases s <;> rfl
  cases a with
  | notANumber => cases b <;> rfl
  | infinity s =>
    cases b with
    | infinity t => cases s <;> cases t <;> rfl
    | _ => rfl
  | zero s =>
    cases b with
    | zero t => exact absurd (by cases s <;> cases t <;> trivial) h
    | notANumber => rfl
    | infinity t => simp only [UnpackedFloat.sub, UnpackedFloat.neg, hsign]
    | finite t n f hn => simp only [UnpackedFloat.sub, UnpackedFloat.neg, hsign]
  | finite s m e hm =>
    cases b with
    | notANumber => rfl
    | infinity t => simp only [UnpackedFloat.sub, UnpackedFloat.neg, hsign]
    | zero t => rfl
    | finite t n f hn =>
      simp only [UnpackedFloat.sub] at h ⊢
      rw [← normalize_neg h, neg_sub, min_comm e f]

/-! ## Doubles -/

section Doubles

variable {x y : Float}

theorem unpack_sub (x y : Float) : (x - y).toModel.unpack = unpack .binary64 (pack .binary64
    (UnpackedFloat.sub .binary64 x.toModel.unpack y.toModel.unpack)) := rfl

/-- A double that is not zero was not zero before it was packed. -/
theorem not_isZero_of_unpack_pack {u : UnpackedFloat}
    (h : ¬IsZero (unpack .binary64 (pack .binary64 u))) : ¬IsZero u := by
  cases u with
  | zero s =>
    refine absurd ?_ h
    rw [show pack .binary64 (.zero s) = packedZero .binary64 s from rfl, unpack_zero]
    trivial
  | _ => exact id

theorem isZero_iff : IsZero x.toModel.unpack ↔ (x == 0) = true := by
  have hbeq : (x == 0) = (x.toModel.unpack.compare (.zero .positive) == some .eq) := rfl
  rw [hbeq]
  cases x.toModel.unpack with
  | notANumber => exact iff_of_false id (by decide)
  | zero s => exact iff_of_true trivial rfl
  | infinity s => cases s <;> exact iff_of_false id Bool.false_ne_true
  | finite s m e hm => cases s <;> exact iff_of_false id Bool.false_ne_true

theorem isZero_iff_value? {v : ℚ} (hx : value? x = some v) : IsZero x.toModel.unpack ↔ v = 0 := by
  obtain ⟨s, hs, rfl⟩ | ⟨s, m, e, hm, hs, -, -, rfl⟩ := unpack_of_value? hx
  · rw [hs]
    exact iff_of_true trivial rfl
  · have hpos := mantissa_pos hm e
    rw [hs, mul_assoc]
    refine iff_of_false id ?_
    cases s <;> simp [factor_positive, factor_negative, hpos.ne']

theorem isFinite_neg (x : Float) : (-x).isFinite = x.isFinite := by
  show (-x).toModel.unpack.isFinite = x.toModel.unpack.isFinite
  rw [unpack_neg]
  cases x.toModel.unpack <;> rfl

theorem float_neg_mul (x y : Float) : -x * y = -(x * y) := by
  have hleft : (-x * y).toModel.unpack = unpack .binary64 (pack .binary64
      (UnpackedFloat.mul .binary64 (-x).toModel.unpack y.toModel.unpack)) := rfl
  have hright : (x * y).toModel.unpack = unpack .binary64 (pack .binary64
      (UnpackedFloat.mul .binary64 x.toModel.unpack y.toModel.unpack)) := rfl
  refine eq_of_unpack_eq ?_
  rw [hleft, unpack_neg, mul_neg_left, unpack_pack_neg, unpack_neg, hright]

theorem float_neg_div_neg (x y : Float) : -x / -y = x / y := by
  have hleft : (-x / -y).toModel.unpack = unpack .binary64 (pack .binary64
      (UnpackedFloat.div .binary64 (-x).toModel.unpack (-y).toModel.unpack)) := rfl
  refine eq_of_unpack_eq ?_
  rw [hleft, unpack_neg, unpack_neg, div_neg_neg]
  rfl

theorem float_neg_sub_neg (h : ¬IsZero (x - y).toModel.unpack) : -x - -y = -(x - y) := by
  refine eq_of_unpack_eq ?_
  rw [unpack_sub] at h
  rw [unpack_sub, unpack_neg, unpack_neg, sub_neg_neg (not_isZero_of_unpack_pack h),
    unpack_pack_neg, unpack_neg, unpack_sub]

theorem float_sub_comm (h : ¬IsZero (x - y).toModel.unpack) : y - x = -(x - y) := by
  refine eq_of_unpack_eq ?_
  rw [unpack_sub] at h
  rw [unpack_sub, sub_exchange (not_isZero_of_unpack_pack h), unpack_pack_neg, unpack_neg,
    unpack_sub]

end Doubles

end ImplicitPlot.Number

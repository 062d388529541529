import ImplicitPlot.Proofs.Number.Rounding

/-
  Doubles as words of 64 bits. A finite double is canonical, with an exponent of at most 971
  (`canonical_of_unpack`), and a canonical number is unpacked as it was packed unless its exponent
  is larger; then it becomes infinite (`unpack_pack_finite`).
-/
namespace ImplicitPlot.Number

open Float.Model (Format UnpackedFloat)
open Float.Model.UnpackedFloat

theorem ofBitVec_toBitVec (s : Sign) : Sign.ofBitVec s.toBitVec = s := by
  cases s <;> rfl

theorem unpackSign_packComponents {spec : Format} (s : Sign) (e : BitVec spec.exponentBits)
    (m : BitVec spec.mantissaBitsWithoutImplicit) :
    unpackSign (packComponents spec s e m) = s.toBitVec := by
  apply BitVec.eq_of_getLsbD_eq
  intro i hi
  obtain rfl : i = 0 := by omega
  simp [unpackSign, packComponents, BitVec.getLsbD_append, BitVec.getElem_append]

/-- The mantissa of a normal number has its first bit in front of the ones that are kept. -/
theorem toNat_one_append (m : BitVec 52) : (1#1 ++ m).toNat = 2 ^ 52 + m.toNat := by
  rw [BitVec.toNat_append, ← Nat.shiftLeft_add_eq_or_of_lt m.isLt]
  rfl

theorem unpack_normal (s : Sign) {e : BitVec 11} (hzero : e ≠ 0#11) (hlast : e ≠ -1#11)
    (m : BitVec 52) : unpack .binary64 (packComponents .binary64 s e m) =
      .finite s (2 ^ 52 + m.toNat) (e.toNat - 1075) (by omega) := by
  unfold unpack
  simp only [unpackMantissa_packComponents, unpackExponent_packComponents,
    unpackSign_packComponents, ofBitVec_toBitVec, if_neg hzero, if_neg hlast, toNat_one_append]
  rfl

theorem unpack_subnormal (s : Sign) {m : BitVec 52} (hm : m ≠ 0#52) (hpos : 0 < m.toNat) :
    unpack .binary64 (packComponents .binary64 s 0#11 m) = .finite s m.toNat (-1074) hpos := by
  have hlast : (0#11) ≠ -1#11 := by decide
  unfold unpack
  simp only [unpackMantissa_packComponents, unpackExponent_packComponents,
    unpackSign_packComponents, ofBitVec_toBitVec, if_neg hlast, dif_neg hm]
  rfl

/-- A mantissa with its first bit is unpacked as it was packed. -/
theorem unpack_normal_ofNat (s : Sign) {m n : ℕ} (hm : 0 < m) (hlow : 2 ^ 52 ≤ m)
    (hhigh : m < 2 ^ 53) (hzero : n ≠ 0) (hlast : n < 2047) :
    unpack .binary64 (packComponents .binary64 s (BitVec.ofNat 11 n) (BitVec.ofNat 52 m)) =
      .finite s m (n - 1075) hm := by
  have hexponent : (BitVec.ofNat 11 n).toNat = n := by
    rw [BitVec.toNat_ofNat]
    exact Nat.mod_eq_of_lt (by omega)
  have hmantissa : (BitVec.ofNat 52 m).toNat = m - 2 ^ 52 := by
    rw [BitVec.toNat_ofNat]
    omega
  have hzero' : BitVec.ofNat 11 n ≠ 0#11 := by
    intro heq
    rw [heq] at hexponent
    exact hzero hexponent.symm
  have hlast' : BitVec.ofNat 11 n ≠ -1#11 := by
    intro heq
    rw [heq] at hexponent
    have hones : (-1#11).toNat = 2047 := rfl
    omega
  rw [unpack_normal s hzero' hlast', UnpackedFloat.finite.injEq]
  exact ⟨rfl, by omega, by omega⟩

/-- A mantissa without its first bit is unpacked as it was packed. -/
theorem unpack_subnormal_ofNat (s : Sign) {m : ℕ} (hm : 0 < m) (hlt : m < 2 ^ 52) :
    unpack .binary64 (packComponents .binary64 s 0#11 (BitVec.ofNat 52 m)) =
      .finite s m (-1074) hm := by
  have hmantissa : (BitVec.ofNat 52 m).toNat = m := by
    rw [BitVec.toNat_ofNat]
    exact Nat.mod_eq_of_lt hlt
  have hne : BitVec.ofNat 52 m ≠ 0#52 := by
    intro heq
    rw [heq] at hmantissa
    have hzero : (0#52).toNat = 0 := rfl
    omega
  rw [unpack_subnormal s hne (by omega), UnpackedFloat.finite.injEq]
  exact ⟨rfl, hmantissa, rfl⟩

theorem unpack_zero (s : Sign) : unpack .binary64 (packedZero .binary64 s) = .zero s := by
  cases s <;> rfl

theorem unpack_infinity (s : Sign) :
    unpack .binary64 (packedInfinity .binary64 s) = .infinity s := by
  cases s <;> rfl

theorem unpack_notANumber : unpack .binary64 (packedNaN .binary64) = .notANumber := rfl

/-- A finite double is canonical and not too large. -/
theorem canonical_of_unpack {b : BitVec Format.binary64.numBits} {s : Sign} {m : ℕ} {e : ℤ}
    {hm : 0 < m} (h : unpack .binary64 b = .finite s m e hm) : Canonical m e ∧ e ≤ 971 := by
  have hmantissa : (unpackMantissa b : BitVec 52).toNat < 2 ^ 52 := (unpackMantissa b).isLt
  have hbound : (unpackExponent b : BitVec 11).toNat < 2 ^ 11 := (unpackExponent b).isLt
  have hbias : ((Format.binary64.exponentBias : ℕ) : ℤ) +
      (Format.binary64.mantissaBitsWithoutImplicit : ℕ) = 1075 := rfl
  unfold unpack at h
  simp only [hbias] at h
  split at h
  · split at h <;> cases h
  · rename_i hlast
    have hne : (unpackExponent b : BitVec 11).toNat ≠ 2047 := fun heq =>
      hlast (BitVec.eq_of_toNat_eq heq)
    split at h
    · rename_i hzero
      have hzero' : (unpackExponent b : BitVec 11).toNat = 0 := congrArg BitVec.toNat hzero
      split at h
      · cases h
      · obtain ⟨-, rfl, rfl⟩ := UnpackedFloat.finite.inj h
        exact ⟨⟨by omega, by omega, Or.inr (by omega)⟩, by omega⟩
    · rename_i hzero
      have hpos : (unpackExponent b : BitVec 11).toNat ≠ 0 := fun heq =>
        hzero (BitVec.eq_of_toNat_eq heq)
      obtain ⟨-, rfl, rfl⟩ := UnpackedFloat.finite.inj h
      have happend := toNat_one_append (unpackMantissa b)
      exact ⟨⟨by omega, by omega, Or.inl (by omega)⟩, by omega⟩

/-- Packing keeps what is canonical, and makes it infinite if it is too large. -/
theorem unpack_pack_finite (s : Sign) {m : ℕ} {e : ℤ} (hm : 0 < m) (h : Canonical m e) :
    unpack .binary64 (pack .binary64 (.finite s m e hm)) =
      if e ≤ 971 then .finite s m e hm else .infinity s := by
  have hlt := h.lt
  have hle := h.le_exponent
  have hpack : pack .binary64 (.finite s m e hm) =
      if 2 ^ 11 ≤ (e + 1023 + 52).toNat + 1 then packedInfinity .binary64 s
      else if m.log2 + 1 = 53 then
        packComponents .binary64 s (BitVec.ofNat 11 (e + 1023 + 52).toNat) (BitVec.ofNat 52 m)
      else packComponents .binary64 s 0#11 (BitVec.ofNat 52 m) := rfl
  rw [hpack]
  by_cases hlarge : 2 ^ 11 ≤ (e + 1023 + 52).toNat + 1
  · have htop : ¬e ≤ 971 := by omega
    rw [if_pos hlarge, unpack_infinity, if_neg htop]
  · have htop : e ≤ 971 := by omega
    rw [if_neg hlarge, if_pos htop]
    by_cases hlog : m.log2 + 1 = 53
    · have hnormal : 2 ^ 52 ≤ m := (Nat.le_log2 hm.ne').mp (by omega)
      rw [if_pos hlog, unpack_normal_ofNat s hm hnormal hlt (by omega) (by omega),
        UnpackedFloat.finite.injEq]
      exact ⟨rfl, rfl, by omega⟩
    · have hsmall : m < 2 ^ 52 := by
        have hlog' : m.log2 < 53 := (Nat.log2_lt hm.ne').mpr hlt
        exact (Nat.log2_lt hm.ne').mp (by omega)
      have hexponent : e = -1074 := h.normal.resolve_left (by omega)
      rw [if_neg hlog, unpack_subnormal_ofNat s hm hsmall, UnpackedFloat.finite.injEq]
      exact ⟨rfl, rfl, hexponent.symm⟩

end ImplicitPlot.Number

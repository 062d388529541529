import ImplicitPlot.Proofs.Number.Numerals
import ImplicitPlot.Proofs.Number.Places

/-
  Numbers read back from their digits. Zeros at the end of a fraction do not change its value
  (`pointed_zeros_value`), a number of units of the last digit is read as that many units
  (`pointed_units_value`), and a number written with a leading digit and an exponent is read as the
  decimal that was written (`readDecimal?_scientific`).
-/
namespace ImplicitPlot.Number

/-! ## Digits -/

theorem ofDigits_append (ds es : List Char) :
    ofDigits (ds ++ es) = 10 ^ es.length * ofDigits ds + ofDigits es := by
  rw [ofDigits, Nat.ofDigitChars_append, Nat.ofDigitChars_eq_ofDigitChars_zero]
  rfl

theorem digitValue_lt {c : Char} (h : c.isDigit = true) : c.toNat - 48 < 10 := by
  simp only [Char.isDigit, Bool.and_eq_true, decide_eq_true_eq, ge_iff_le,
    UInt32.le_iff_toNat_le] at h
  have hnine : c.toNat ≤ 57 := h.2
  omega

theorem ofDigits_lt {ds : List Char} (hds : ∀ c ∈ ds, c.isDigit = true) :
    ofDigits ds < 10 ^ ds.length := by
  induction ds with
  | nil => exact Nat.one_pos
  | cons c ds ih =>
    have hlead : ofDigits [c] ≤ 9 := by
      have hvalue : ofDigits [c] = c.toNat - 48 := by
        rw [ofDigits, Nat.ofDigitChars_cons, Nat.ofDigitChars_nil, Nat.mul_zero, Nat.zero_add]
        rfl
      have hdigit := digitValue_lt (hds c List.mem_cons_self)
      omega
    have hrest := ih fun d hd => hds d (List.mem_cons_of_mem c hd)
    have hscaled := Nat.mul_le_mul_left (10 ^ ds.length) hlead
    rw [← List.singleton_append, ofDigits_append, List.length_append, List.length_singleton,
      Nat.pow_add]
    omega

theorem ofDigits_zeros (n : ℕ) : ofDigits (List.replicate n '0') = 0 := by
  induction n with
  | zero => rfl
  | succ n ih =>
    rw [List.replicate_succ, ← List.singleton_append, ofDigits_append, ih]
    rfl

theorem ofDigits_paddedDigits (width n : ℕ) : ofDigits (paddedDigits width n) = n := by
  rw [paddedDigits, ofDigits_append, ofDigits_zeros, ofDigits_digits, Nat.mul_zero, Nat.zero_add]

theorem isDigit_of_mem_paddedDigits {width n : ℕ} {c : Char} (h : c ∈ paddedDigits width n) :
    c.isDigit = true := by
  rcases List.mem_append.mp h with hzero | hdigit
  · rw [List.eq_of_mem_replicate hzero]
    rfl
  · exact isDigit_of_mem_digits hdigit

theorem paddedDigits_ne_nil (width n : ℕ) : paddedDigits width n ≠ [] :=
  List.append_ne_nil_of_right_ne_nil _ (List.ne_nil_of_length_pos (digits_length_pos n))

theorem paddedDigits_length {width n : ℕ} (hwidth : 0 < width) (hn : n < 10 ^ width) :
    (paddedDigits width n).length = width := by
  have hlength := (Nat.length_toDigits_le_iff (by norm_num) hwidth).mpr hn
  rw [← digits] at hlength
  rw [paddedDigits, List.length_append, List.length_replicate]
  omega

theorem digitValue?_of_isDigit {c : Char} (h : c.isDigit = true) :
    digitValue? c = some (c.toNat - 48) := by
  rw [digitValue?, if_pos h]

theorem mapM_digitValue? {ds : List Char} (hds : ∀ c ∈ ds, c.isDigit = true) :
    ds.mapM digitValue? = some (ds.map fun c => c.toNat - 48) := by
  induction ds with
  | nil => rfl
  | cons c ds ih =>
    obtain ⟨hc, hds⟩ := List.forall_mem_cons.mp hds
    rw [List.mapM_cons, digitValue?_of_isDigit hc, ih hds]
    rfl

/-- Decimal digits are read as the number they denote. -/
theorem readNatural?_of_isDigit {ds : List Char} (hne : ds ≠ [])
    (hds : ∀ c ∈ ds, c.isDigit = true) : readNatural? 10 ds = some (ofDigits ds) := by
  have hsome : (ds.map fun c => c.toNat - 48) ≠ [] := fun h => hne (List.map_eq_nil_iff.mp h)
  have hsmall : (ds.map fun c => c.toNat - 48).all (· < 10) = true := by
    simp only [List.all_map, List.all_eq_true, Function.comp_apply, decide_eq_true_eq]
    exact fun c hc => digitValue_lt (hds c hc)
  rw [readNatural?, mapM_digitValue? hds, Option.bind_eq_bind, Option.bind_some,
    if_pos ⟨hsome, hsmall⟩, List.foldl_map]
  rfl

theorem readNatural?_digits (n : ℕ) : readNatural? 10 (digits n) = some n := by
  rw [readNatural?_of_isDigit (List.ne_nil_of_length_pos (digits_length_pos n))
    fun _ => isDigit_of_mem_digits, ofDigits_digits]

theorem pointed_value (whole fraction : List Char) (exponent : ℤ) :
    (pointed whole fraction exponent).value =
      (ofDigits whole + ofDigits fraction / 10 ^ fraction.length) * 10 ^ exponent := by
  rw [pointed, Decimal.value, ofDigits_append, zpow_sub₀ (by norm_num), zpow_natCast]
  push_cast
  field_simp

/-- Zeros at the end of a fraction do not count. -/
theorem pointed_zeros_value (whole fraction : List Char) (n : ℕ) (exponent : ℤ) :
    (pointed whole (fraction ++ List.replicate n '0') exponent).value =
      (pointed whole fraction exponent).value := by
  rw [pointed_value, pointed_value, ofDigits_append, ofDigits_zeros, List.length_append,
    List.length_replicate, pow_add, Nat.add_zero]
  push_cast
  field_simp

/-- A number of units of the last of `places` digits behind the point. -/
theorem pointed_units_value (places n : ℕ) :
    (pointed (digits (n / 10 ^ places)) (paddedDigits places (n % 10 ^ places)) 0).value =
      n / 10 ^ places := by
  rw [pointed_value, ofDigits_digits, ofDigits_paddedDigits, zpow_zero, mul_one]
  rcases Nat.eq_zero_or_pos places with rfl | hplaces
  · simp [Nat.mod_one]
  · have hsplit : (n : ℚ) = 10 ^ places * (n / 10 ^ places : ℕ) + (n % 10 ^ places : ℕ) := by
      exact_mod_cast (Nat.div_add_mod n (10 ^ places)).symm
    rw [paddedDigits_length hplaces (Nat.mod_lt n (by positivity))]
    field_simp
    linarith

/-! ## Exponents -/

/-- An exponent with its sign is read as it was written. -/
theorem readExponent?_signed (n : ℤ) :
    readExponent? ((if n < 0 then '-' else '+') :: paddedDigits 2 n.natAbs) = some n := by
  have hne := List.isEmpty_eq_false_iff.mpr (paddedDigits_ne_nil 2 n.natAbs)
  have hdigits : (paddedDigits 2 n.natAbs).all Char.isDigit = true :=
    List.all_eq_true.mpr fun c hc => isDigit_of_mem_paddedDigits hc
  split
  · simp only [readExponent?, hne, hdigits, ofDigits_paddedDigits, Bool.not_true, Bool.or_self,
      Bool.false_eq_true, if_false, if_true, Option.some_inj]
    omega
  · simp only [readExponent?, hne, hdigits, ofDigits_paddedDigits, Bool.not_true, Bool.or_self,
      Bool.false_eq_true, if_false, Option.some_inj]
    omega

/-- A number with a leading digit, `places` digits behind it and an exponent is read as it was
written. -/
theorem readDecimal?_scientific {d : Decimal} {places : ℕ} (hlow : 10 ^ places ≤ d.coefficient)
    (hhigh : d.coefficient < 10 ^ (places + 1)) {c : Char} {cs : List Char}
    (hdigits : digits d.coefficient = c :: cs) :
    readDecimal? (c :: '.' :: (cs ++ 'e' :: (if d.exponent + places < 0 then '-' else '+') ::
      paddedDigits 2 (d.exponent + places).natAbs)) = some d := by
  have hmem {x : Char} (hx : x ∈ c :: cs) : x.isDigit = true := by
    rw [← hdigits] at hx
    exact isDigit_of_mem_digits hx
  have hread := readDecimal?_exponent (List.cons_ne_nil c [])
    (fun x hx => hmem (by rw [List.mem_singleton.mp hx]; exact List.mem_cons_self))
    (fun x hx => hmem (List.mem_cons_of_mem c hx))
    ((if d.exponent + places < 0 then '-' else '+') :: paddedDigits 2 (d.exponent + places).natAbs)
  have hlength := digits_length_eq hlow hhigh
  rw [hdigits, List.length_cons, Nat.succ_inj] at hlength
  have hcoefficient : ofDigits ([c] ++ cs) = d.coefficient := by
    rw [List.singleton_append, ← hdigits, ofDigits_digits]
  rw [readExponent?_signed, Option.map_some, pointed, hcoefficient, hlength,
    add_sub_cancel_right] at hread
  exact hread

end ImplicitPlot.Number

import ImplicitPlot.Text.Bytes

/-
  Texts as bytes of UTF-8. A digit or a point is a single byte, and no other character starts with
  one of these (`exists_first_byte`). A reader that looks at bytes alone therefore finds the digits
  of a text where a reader of characters finds them (`takeWhile_utf8`), and stops between two
  characters, as the first byte that is no digit starts one.
-/
namespace ImplicitPlot.Text

/-- The bytes of a text in UTF-8. -/
def utf8 (cs : List Char) : List UInt8 := cs.flatMap String.utf8EncodeChar

theorem utf8_cons (c : Char) (cs : List Char) : utf8 (c :: cs) = String.utf8EncodeChar c ++ utf8 cs :=
  List.flatMap_cons

theorem utf8_append (as bs : List Char) : utf8 (as ++ bs) = utf8 as ++ utf8 bs :=
  List.flatMap_append

theorem length_utf8 (cs : List Char) : (utf8 cs).length = byteLength cs := by
  induction cs with
  | nil => rfl
  | cons c cs ih =>
    rw [utf8_cons, List.length_append, String.length_utf8EncodeChar, ih, byteLength_cons]

/-- The bytes behind a boundary are those of the characters behind it. -/
theorem drop_utf8 (front rest : List Char) :
    (utf8 (front ++ rest)).drop (byteLength front) = utf8 rest := by
  rw [utf8_append, ← length_utf8, List.drop_left]

/-! ## Bytes of digits and points -/

/-- A byte that is an ASCII digit. -/
def isDigitByte (b : UInt8) : Bool := 0x30 ≤ b && b ≤ 0x39

/-- The byte of a point. -/
def pointByte : UInt8 := 0x2E

/-- A character has one byte, its code, or starts with a byte that is no ASCII character. -/
theorem utf8EncodeChar_cases (c : Char) :
    (c.toNat < 128 ∧ String.utf8EncodeChar c = [UInt8.ofNat c.toNat]) ∨
      (128 ≤ c.toNat ∧ ∃ b bs, String.utf8EncodeChar c = b :: bs ∧ 128 ≤ b.toNat) := by
  have hval : c.val.toNat = c.toNat := rfl
  unfold String.utf8EncodeChar
  dsimp only
  rw [hval]
  split
  · exact Or.inl ⟨by omega, rfl⟩
  · refine Or.inr ⟨by omega, ?_⟩
    split
    · refine ⟨_, _, rfl, ?_⟩
      rw [UInt8.toNat_ofNat']
      omega
    · split
      · refine ⟨_, _, rfl, ?_⟩
        rw [UInt8.toNat_ofNat']
        omega
      · refine ⟨_, _, rfl, ?_⟩
        rw [UInt8.toNat_ofNat']
        omega

theorem isDigit_iff (c : Char) : c.isDigit = true ↔ 48 ≤ c.toNat ∧ c.toNat ≤ 57 := by
  simp only [Char.isDigit, Bool.and_eq_true, decide_eq_true_eq, ge_iff_le, UInt32.le_iff_toNat_le]
  exact Iff.rfl

theorem isDigitByte_iff (b : UInt8) : isDigitByte b = true ↔ 48 ≤ b.toNat ∧ b.toNat ≤ 57 := by
  simp only [isDigitByte, Bool.and_eq_true, decide_eq_true_eq, UInt8.le_iff_toNat_le]
  exact Iff.rfl

theorem eq_pointByte_iff (b : UInt8) : b = pointByte ↔ b.toNat = 46 :=
  UInt8.toNat_inj.symm

theorem eq_point_iff (c : Char) : c = '.' ↔ c.toNat = 46 :=
  Char.toNat_inj.symm

/-- The first byte of a character says whether it is a digit, and is all of it then. -/
theorem exists_first_byte (c : Char) :
    ∃ b bs, String.utf8EncodeChar c = b :: bs ∧ isDigitByte b = c.isDigit ∧
      (c.isDigit = true → bs = []) ∧ (b = pointByte ↔ c = '.') := by
  obtain ⟨hc, hbytes⟩ | ⟨hc, b, bs, hbytes, hb⟩ := utf8EncodeChar_cases c
  · have hcode : (UInt8.ofNat c.toNat).toNat = c.toNat := by
      rw [UInt8.toNat_ofNat']
      omega
    refine ⟨_, _, hbytes, ?_, fun _ => rfl, ?_⟩
    · rw [Bool.eq_iff_iff, isDigitByte_iff, isDigit_iff, hcode]
    · rw [eq_pointByte_iff, eq_point_iff, hcode]
  · refine ⟨_, _, hbytes, ?_, ?_, ?_⟩
    · rw [Bool.eq_iff_iff, isDigitByte_iff, isDigit_iff]
      omega
    · rw [isDigit_iff]
      omega
    · rw [eq_pointByte_iff, eq_point_iff]
      omega

theorem takeWhile_utf8 (cs : List Char) :
    (utf8 cs).takeWhile isDigitByte = utf8 (cs.takeWhile Char.isDigit) := by
  induction cs with
  | nil => rfl
  | cons c cs ih =>
    obtain ⟨b, bs, hbytes, hdigit, hone, -⟩ := exists_first_byte c
    rw [utf8_cons, hbytes, List.cons_append, List.takeWhile_cons, List.takeWhile_cons, hdigit]
    split
    · rename_i hc
      rw [utf8_cons, hbytes, hone hc, List.nil_append, ih, List.singleton_append]
    · rfl

/-- Behind a boundary stands the byte of a point if the character there is a point. -/
theorem getElem?_utf8 (front rest : List Char) :
    (utf8 (front ++ rest))[byteLength front]? = some pointByte ↔ rest.head? = some '.' := by
  rw [← List.head?_drop, drop_utf8]
  cases rest with
  | nil => exact ⟨nofun, nofun⟩
  | cons c cs =>
    obtain ⟨b, bs, hbytes, -, -, hpoint⟩ := exists_first_byte c
    rw [utf8_cons, hbytes, List.cons_append, List.head?_cons, List.head?_cons, Option.some_inj,
      Option.some_inj, hpoint]

end ImplicitPlot.Text

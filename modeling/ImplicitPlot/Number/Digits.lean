/-
  Decimal digits of whole numbers, and the quotient of two naturals rounded to the nearest.
  A text of digits is read back by `ofDigits`; `roundQuotient` gives a half to the even
  neighbour.
-/
namespace ImplicitPlot.Number

/-- The shortest decimal digits of a natural number. -/
def digits (n : Nat) : List Char := Nat.toDigits 10 n

/-- The number that a text of decimal digits denotes. -/
def ofDigits (cs : List Char) : Nat := Nat.ofDigitChars 10 cs 0

/-- A natural number in decimal. -/
def natText (n : Nat) : String := .ofList (digits n)

/-- An integer in decimal, with a minus sign if it is negative. -/
def intText (i : Int) : String := (if i < 0 then "-" else "") ++ natText i.natAbs

/-- Decimal digits with zeros in front up to a width. -/
def paddedDigits (width n : Nat) : List Char :=
  List.replicate (width - (digits n).length) '0' ++ digits n

/-- The value of a digit; the letters of either case go on behind nine. -/
def digitValue? (c : Char) : Option Nat :=
  if c.isDigit then some (c.toNat - 48)
  else if 'a' ≤ c ∧ c ≤ 'z' then some (c.toNat - 87)
  else if 'A' ≤ c ∧ c ≤ 'Z' then some (c.toNat - 55)
  else none

/-- The number that a text of digits of some base denotes, if it is one. -/
def readNatural? (base : Nat) (cs : List Char) : Option Nat := do
  let ds ← cs.mapM digitValue?
  if ds ≠ [] ∧ ds.all (· < base) then some (ds.foldl (fun n d => base * n + d) 0) else none

/-- The integer nearest to `num / den`; a half goes to the even neighbour. -/
def roundQuotient (num den : Nat) : Nat :=
  let quotient := num / den
  let rest := num % den
  if 2 * rest < den then quotient
  else if den < 2 * rest then quotient + 1
  else quotient + quotient % 2

theorem ofDigits_digits (n : Nat) : ofDigits (digits n) = n := Nat.ofDigitChars_ten_toDigits

theorem isDigit_of_mem_digits {n : Nat} {c : Char} (h : c ∈ digits n) : c.isDigit = true :=
  Nat.isDigit_of_mem_toDigits (by decide) (by decide) h

theorem digits_length_pos (n : Nat) : 0 < (digits n).length := Nat.length_toDigits_pos

end ImplicitPlot.Number

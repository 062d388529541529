import ImplicitPlot.Number.Decimal

/-
  Numbers read from text. An unsigned numeral is `digits`, `digits.digits`, `digits.` or
  `.digits`; a full one may have a sign before and an exponent behind it, or be one of the words
  for infinity and for no number, in letters of either case. The value is the nearest double.
-/
namespace ImplicitPlot.Number

/-- A word in small letters of the Latin alphabet. -/
def smallLetters (cs : List Char) : List Char := cs.map Char.toLower

/-- Decimal digits with `places` of them behind the point. -/
def pointed (whole fraction : List Char) (exponent : Int) : Decimal :=
  ⟨ofDigits (whole ++ fraction), exponent - fraction.length⟩

/-- An exponent: a sign, which may be missing, and at least one digit. -/
def readExponent? (cs : List Char) : Option Int :=
  let (negative, ds) := match cs with
    | '-' :: ds => (true, ds)
    | '+' :: ds => (false, ds)
    | ds => (false, ds)
  if ds.isEmpty || !ds.all Char.isDigit then none
  else some (if negative then -(ofDigits ds : Int) else ofDigits ds)

/-- An unsigned number with an exponent, which may be missing. -/
def readDecimal? (cs : List Char) : Option Decimal :=
  let (whole, rest) := cs.span Char.isDigit
  let (fraction, rest) := match rest with
    | '.' :: rest => rest.span Char.isDigit
    | rest => ([], rest)
  if whole.isEmpty && fraction.isEmpty then none
  else match rest with
    | [] => some (pointed whole fraction 0)
    | c :: rest =>
      if c = 'e' ∨ c = 'E' then (readExponent? rest).map (pointed whole fraction) else none

/-- A double without its sign. -/
def readMagnitude? (cs : List Char) : Option Float :=
  let word := smallLetters cs
  if word = "inf".toList ∨ word = "infinity".toList then some (1.0 / 0.0)
  else if word = "nan".toList then some (0.0 / 0.0)
  else (readDecimal? cs).map Decimal.toFloat

/-- A double in decimal, or none if the text is no number. -/
def readFloat? (cs : List Char) : Option Float :=
  match cs with
  | '-' :: cs => (readMagnitude? cs).map (-·)
  | '+' :: cs => readMagnitude? cs
  | cs => readMagnitude? cs

end ImplicitPlot.Number

import CatalogRules.Decimal.Double
import CatalogRules.Text.Blank

/-! # Numerals

A numeral is an optional sign, digits with an optional point among, before or after them, and an
optional exponent with an optional sign. It reads as the nearest double; a numeral whose magnitude
is too large for a double reads as no number. -/

namespace CatalogRules.Numeral

/-- The value of a run of decimal digits. -/
def digitsValue (cs : List Char) : Nat :=
  cs.foldl (fun n c => 10 * n + (c.toNat - '0'.toNat)) 0

/-- A leading sign: whether it is a minus, and the text after it. -/
def sign : List Char → Bool × List Char
  | '+' :: cs => (false, cs)
  | '-' :: cs => (true, cs)
  | cs => (false, cs)

/-- The exponent part that makes up the whole text; no text stands for zero. -/
def exponent? : List Char → Option Int
  | [] => some 0
  | c :: cs =>
    if c = 'e' ∨ c = 'E' then
      let (minus, ds) := sign cs
      if ds ≠ [] ∧ ds.all Char.isDigit then
        some (if minus then -(digitsValue ds : Int) else digitsValue ds)
      else none
    else none

/-- The sign, the digits and the exponent of a numeral. -/
def parts? (cs : List Char) : Option (Bool × Nat × Int) :=
  let (minus, cs) := sign cs
  let whole := cs.takeWhile Char.isDigit
  let rest := cs.dropWhile Char.isDigit
  let (part, rest) := match rest with
    | '.' :: after => (after.takeWhile Char.isDigit, after.dropWhile Char.isDigit)
    | _ => ([], rest)
  if whole = [] ∧ part = [] then none
  else do
    let e ← exponent? rest
    some (minus, digitsValue (whole ++ part), e - part.length)

/-- The finite double that a numeral stands for. -/
def read? (cs : List Char) : Option Double := do
  let (minus, digits, exponent) ← parts? cs
  Double.ofDecimal minus digits exponent

/-- The number that a value stands for: blanks at either end do not count. -/
def ofText? (s : String) : Option Double := read? (Text.strip s.toList)

end CatalogRules.Numeral

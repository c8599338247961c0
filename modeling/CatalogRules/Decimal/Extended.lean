import CatalogRules.Decimal.Numeral
import CatalogRules.Decimal.Shortest
import CatalogRules.Text.Case

/-! # Extended doubles

A double that may also be infinite or no number. The text of an extended double never has an
exponent, and a whole number is written without a point. -/

namespace CatalogRules

/-- A double, an infinity, or no number. -/
inductive Extended where
  | finite (x : Double)
  | infinite (negative : Bool)
  | nan
  deriving DecidableEq, Repr

namespace Extended

/-- A magnitude with its sign; a magnitude that is too large is infinite. -/
def ofDecimal (negative : Bool) (digits : Nat) (exponent : Int) : Extended :=
  match Double.ofDecimal negative digits exponent with
  | some x => .finite x
  | none => .infinite negative

/-- The words for an infinity. -/
def infinityWords : List String := ["inf", "infinity"]

/-- The number that a text writes: a numeral, or a word for an infinity or for no number. -/
def ofText? (s : String) : Option Extended :=
  match Numeral.parts? s.toList with
  | some (minus, digits, exponent) => some (ofDecimal minus digits exponent)
  | none =>
    let (minus, word) := Numeral.sign s.toList
    let word := String.ofList word
    if infinityWords.any (Text.sameIgnoringCase · word) then some (.infinite minus)
    else if Text.sameIgnoringCase "nan" word then some .nan
    else none

/-- The number differs from zero. -/
def isNonzero : Extended → Bool
  | .finite x => x.units ≠ 0
  | .infinite _ => true
  | .nan => true

/-- The number rounded to a whole number, a half away from zero, and cut off below zero and above
the given limit; what is no number counts as zero. -/
def toNatWithin (limit : Nat) : Extended → Nat
  | .finite x =>
    if x.negative then 0 else min limit ((2 * x.units + Double.one) / (2 * Double.one))
  | .infinite negative => if negative then 0 else limit
  | .nan => 0

/-- A decimal without an exponent. -/
def positional (d : Double.Decimal) : List Char :=
  let ds := Nat.toDigits 10 d.digits
  let point : Int := ds.length + d.exponent
  if 0 ≤ d.exponent then ds ++ List.replicate d.exponent.toNat '0'
  else if 0 < point then ds.take point.toNat ++ '.' :: ds.drop point.toNat
  else '0' :: '.' :: List.replicate (-point).toNat '0' ++ ds

/-- A text with a minus sign in front or not. -/
def signed (negative : Bool) (cs : List Char) : String :=
  String.ofList (if negative then '-' :: cs else cs)

/-- The text of a number. -/
def text : Extended → String
  | .finite x =>
    signed x.negative (if x.units = 0 then ['0'] else positional (Double.shortest x.units))
  | .infinite negative => signed negative "inf".toList
  | .nan => "NaN"

end Extended
end CatalogRules

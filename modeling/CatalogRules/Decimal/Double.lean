/-! # Doubles

A finite double (binary64) is a sign and a multiple of the least positive double `2⁻¹⁰⁷⁴`, whose
number of *units* has at most 53 significant binary digits and is below `2²⁰⁹⁸`. Arithmetic on units
is exact, so a result is the exact value rounded once: `nearest` takes a quotient to the nearest
double, and to the one with the even significand if two are equally near. -/

namespace CatalogRules

/-- A finite double: `±units · 2⁻¹⁰⁷⁴`. -/
structure Double where
  negative : Bool
  units : Nat
  deriving DecidableEq, Repr

namespace Double

/-- The units of the value one. -/
def one : Nat := Nat.pow 2 1074

/-- From here on magnitudes are too large for a double. -/
def bound : Nat := Nat.pow 2 2098

/-- The quotient rounded to a whole number, a tie to the even one. -/
def roundQuotient (num den : Nat) : Nat :=
  let q := num / den
  let r := 2 * (num % den)
  if den < r ∨ (r = den ∧ q % 2 = 1) then q + 1 else q

/-- The units of the double nearest to `num / den` units. -/
def nearestUnits (num den : Nat) : Nat :=
  let places := (num / den).log2 - 52
  roundQuotient num (den * Nat.pow 2 places) * Nat.pow 2 places

/-- The double nearest to `±num / den` units, if it is finite. -/
def nearest (negative : Bool) (num den : Nat) : Option Double :=
  let units := nearestUnits num den
  if units < bound then some ⟨negative, units⟩ else none

/-- The double nearest to a natural number. -/
def ofNat (negative : Bool) (n : Nat) : Option Double := nearest negative (n * one) 1

/-- The product, rounded. -/
def mul (x y : Double) : Option Double :=
  nearest (x.negative != y.negative) (x.units * y.units) one

/-- The quotient, rounded. -/
def div (x y : Double) : Option Double :=
  nearest (x.negative != y.negative) (x.units * one) y.units

/-- The value in units. -/
def value (x : Double) : Int := if x.negative then -(x.units : Int) else x.units

instance : LT Double := ⟨fun x y => x.value < y.value⟩

instance : DecidableLT Double := fun x y => inferInstanceAs (Decidable (x.value < y.value))

/-- The double nearest to `±digits · 10^exponent`, if it is finite. With `m = ⌊log₂ digits⌋` the
magnitude lies between `10^(0.30102 m + exponent)` and `10^(0.30103 (m + 1) + exponent)`, which
settles the far cases without computing the power. -/
def ofDecimal (negative : Bool) (digits : Nat) (exponent : Int) : Option Double :=
  if digits = 0 then some ⟨negative, 0⟩
  else if 310 < (digits.log2 * 30102 / 100000 : Nat) + exponent then none
  else if ((digits.log2 + 1) * 30103 / 100000 : Nat) + 1 + exponent < -326 then some ⟨negative, 0⟩
  else if 0 ≤ exponent then nearest negative (digits * Nat.pow 10 exponent.toNat * one) 1
  else nearest negative (digits * one) (Nat.pow 10 (-exponent).toNat)

end Double
end CatalogRules

import CatalogRules.Decimal.Double

/-! # Shortest decimals

The shortest decimal of a double has the fewest digits among the decimals that are rounded to the
double; of several with that many digits it is the nearest one, and of two equally near ones the one
with the even last digit. `text` writes it: positional between `10⁻⁵` and `10¹⁶`, otherwise with an
exponent that always has a sign. -/

namespace CatalogRules.Double

/-- A decimal `digits · 10^exponent`. -/
structure Decimal where
  digits : Nat
  exponent : Int
  deriving DecidableEq, Repr

/-- Four times the distances, in units, to the ends of the interval of the numbers that are rounded
to the given units; below a power of two the doubles are closer together. -/
def halfGaps (units : Nat) : Nat × Nat :=
  let places := units.log2 - 52
  let gap := Nat.pow 2 places
  (if units = Nat.pow 2 units.log2 ∧ 0 < places then gap else 2 * gap, 2 * gap)

/-- `num / den` units are rounded to the given units. -/
def roundsTo (units num den : Nat) : Bool :=
  let gaps := halfGaps units
  let low := (4 * units - gaps.1) * den
  let high := (4 * units + gaps.2) * den
  if units / Nat.pow 2 (units.log2 - 52) % 2 = 0 then low ≤ 4 * num && 4 * num ≤ high
  else low < 4 * num && 4 * num < high

/-- The decimal on the grid of step `10^exponent` that is nearest to the double among those rounded
to it. -/
def onGrid (units : Nat) (exponent : Int) : Option Decimal :=
  let step := if 0 ≤ exponent then (Nat.pow 10 exponent.toNat * one, 1)
    else (one, Nat.pow 10 (-exponent).toNat)
  let floor := units * step.2 / step.1
  let below := roundsTo units (floor * step.1) step.2
  let above := roundsTo units ((floor + 1) * step.1) step.2
  let rest := 2 * (units * step.2 - floor * step.1)
  match below, above with
  | false, false => none
  | true, false => some ⟨floor, exponent⟩
  | false, true => some ⟨floor + 1, exponent⟩
  | true, true =>
    if rest < step.1 ∨ (rest = step.1 ∧ floor % 2 = 0) then some ⟨floor, exponent⟩
    else some ⟨floor + 1, exponent⟩

/-- The least `k` with `units < 10^k · 2¹⁰⁷⁴`, searched upwards from `start`. -/
def magnitude (units : Nat) (start : Int) : Nat → Int
  | 0 => start
  | fuel + 1 =>
    let below :=
      if 0 ≤ start then units < Nat.pow 10 start.toNat * one
      else units * Nat.pow 10 (-start).toNat < one
    if below then start else magnitude units (start + 1) fuel

/-- The first grid with a decimal that is rounded to the double, from coarse to fine. -/
def firstGrid (units : Nat) (exponent : Int) : Nat → Decimal
  | 0 => ⟨0, 0⟩
  | fuel + 1 =>
    match onGrid units exponent with
    | some d => d
    | none => firstGrid units (exponent - 1) fuel

/-- Removes zeros at the end of the digits. -/
def dropZeros (d : Decimal) : Nat → Decimal
  | 0 => d
  | fuel + 1 =>
    if d.digits ≠ 0 ∧ d.digits % 10 = 0 then dropZeros ⟨d.digits / 10, d.exponent + 1⟩ fuel else d

/-- The shortest decimal of a positive number of units. -/
def shortest (units : Nat) : Decimal :=
  let start : Int := ((units.log2 * 30102 / 100000 : Nat) : Int) - 325
  let top := magnitude units start 5
  dropZeros (firstGrid units top 19) 20

/-- Positional notation is used for numbers below `10` to this power. -/
def positionalBelow : Int := 16

/-- Positional notation is used for numbers not below `10` to this power. -/
def positionalFrom : Int := -5

/-- A decimal is written with a point and at least one digit on either side, or with one digit
before the point, if any, and a signed exponent. -/
def Decimal.chars (d : Decimal) : List Char :=
  let ds := Nat.toDigits 10 d.digits
  let point : Int := ds.length + d.exponent
  if positionalFrom < point ∧ point ≤ positionalBelow then
    if 0 ≤ d.exponent then ds ++ List.replicate d.exponent.toNat '0' ++ ['.', '0']
    else if 0 < point then ds.take point.toNat ++ '.' :: ds.drop point.toNat
    else '0' :: '.' :: List.replicate (-point).toNat '0' ++ ds
  else
    let e := point - 1
    let tail := 'e' :: (if 0 ≤ e then '+' else '-') :: Nat.toDigits 10 e.natAbs
    match ds with
    | [] => tail
    | [c] => c :: tail
    | c :: cs => c :: '.' :: cs ++ tail

/-- The text of a double: the shortest decimal, with a minus sign also before a negative zero. -/
def chars (x : Double) : List Char :=
  let body := if x.units = 0 then ['0', '.', '0'] else (shortest x.units).chars
  if x.negative then '-' :: body else body

end CatalogRules.Double

import CatalogRules.Json.Value

/-! # JSON numerals

A numeral is taken apart into a sign, a *significand* of at most 64 bits and a decimal exponent.
Digits that no longer fit into the significand are dropped, before the point with an increase of the
exponent. An integer without point and exponent that fits is kept exactly; everything else is the
significand as a double, multiplied or divided by a power of ten, so it may differ from the nearest
double in the last place. -/

namespace CatalogRules.Json

/-- The largest significand. -/
def significandMax : Nat := Word.bound - 1

/-- The double nearest to a power of ten. -/
def powerOfTen (n : Nat) : Double := ⟨false, Double.nearestUnits (Nat.pow 10 n * Double.one) 1⟩

/-- Divides by `10^308` until the exponent that is left is that of a single division. -/
def shrink (x : Double) (exponent : Nat) : Nat → Option Double
  | 0 => some x
  | fuel + 1 =>
    if exponent ≤ 308 then x.div (powerOfTen exponent)
    else if x.units = 0 then some x
    else do shrink (← x.div (powerOfTen 308)) (exponent - 308) fuel

/-- The double of a significand and an exponent, if it is finite. -/
def scaled (negative : Bool) (significand : Nat) (exponent : Int) : Option Number := do
  let x ← Double.ofNat false significand
  let y ←
    if 0 ≤ exponent then
      if exponent ≤ 308 then x.mul (powerOfTen exponent.toNat)
      else if significand = 0 then some x else none
    else shrink x exponent.natAbs (exponent.natAbs / 308 + 2)
  some (.double ⟨negative, y.units⟩)

/-- Appends digits to a significand while they fit; the result says how many were taken. -/
def take (significand : Nat) (taken : Nat) : List Char → Nat × Nat
  | [] => (significand, taken)
  | c :: cs =>
    let next := 10 * significand + (c.toNat - '0'.toNat)
    if significandMax < next then (significand, taken) else take next (taken + 1) cs

/-- An exponent of a numeral; one that does not fit into 32 bits counts as unbounded. -/
structure Exponent where
  minus : Bool
  digits : List Char

/-- The value of the digits of an exponent, unless it does not fit into 32 bits. -/
def Exponent.value? (e : Exponent) : Option Nat :=
  let n := e.digits.foldl (fun n c => 10 * n + (c.toNat - '0'.toNat)) 0
  if n < Nat.pow 2 31 then some n else none

/-- The number of a numeral with the given parts; `none` if it is too large for a double. -/
def numeralValue (negative : Bool) (whole : List Char) (part : Option (List Char))
    (exponent : Option Exponent) : Option Number :=
  let (n, used) := take 0 0 whole
  if used = whole.length ∧ part = none ∧ exponent.isNone then
    if negative then
      if n = 0 then some (.double ⟨true, 0⟩)
      else if n ≤ Word.half then some (.int (-n))
      else scaled true n 0
    else some (.int n)
  else
    let (m, taken) := take n 0 (part.getD [])
    let shift : Int := (whole.length - used : Nat) - (taken : Int)
    match exponent with
    | none => scaled negative m shift
    | some e =>
      match e.value? with
      | some k => scaled negative m (if e.minus then shift - k else shift + k)
      | none => if m ≠ 0 ∧ ¬ e.minus then none else some (.double ⟨negative, 0⟩)

end CatalogRules.Json

import CatalogRules.Json.Document
import CatalogRules.Toml.Value

/-! # Scalars in TOML

Truth values, whole numbers, floating-point numbers, dates and times: a scalar that is no string is
a run of characters, which is read as a whole. -/

namespace CatalogRules.Toml

/-! ### Numbers -/

/-- The digits of a number, between which there may be single underscores. -/
def digits? (isDigit : Char → Bool) : List Char → Option (List Char)
  | [] => none
  | [c] => if isDigit c then some [c] else none
  | c :: '_' :: rest => if isDigit c then do some (c :: (← digits? isDigit rest)) else none
  | c :: rest => if isDigit c then do some (c :: (← digits? isDigit rest)) else none

/-- Decimal digits, of which the first is a zero only if there is no other one. -/
def whole? (cs : List Char) : Option (List Char) := do
  let ds ← digits? Char.isDigit cs
  if ds.head? = some '0' ∧ ds.length ≠ 1 then none else some ds

/-- The limits of a whole number. -/
def integer? (n : Int) : Option Value :=
  if Word.isSigned n then some (.integer n) else none

/-- A number of a given base after its mark. -/
def based? (base : Nat) (cs : List Char) : Option Value := do
  let value (c : Char) : Option Nat := (Json.Document.hex? c).filter (· < base)
  let ds ← digits? (fun c => (value c).isSome) cs
  integer? (ds.foldl (fun n c => base * n + (value c).getD 0) 0 : Nat)

/-- The exponent of a number after its letter. -/
def exponent? (cs : List Char) : Option Int := do
  let (minus, cs) := Numeral.sign cs
  let ds ← digits? Char.isDigit cs
  some (if minus then -(Numeral.digitsValue ds : Int) else Numeral.digitsValue ds)

/-- A floating-point number, of which the digits before the point, the digits after it and the
exponent are given; it must not be too large. -/
def float? (minus : Bool) (whole part : List Char) (exponent : Int) : Option Value := do
  let x ← Double.ofDecimal minus (Numeral.digitsValue (whole ++ part)) (exponent - part.length)
  some (.float (.finite x))

/-- A number without its sign. -/
def unsigned? (minus : Bool) (cs : List Char) : Option Value := do
  let isMark (c : Char) : Bool := c == '.' || c == 'e' || c == 'E'
  let isLetter (c : Char) : Bool := c == 'e' || c == 'E'
  let whole ← whole? (cs.takeWhile (!isMark ·))
  match cs.dropWhile (!isMark ·) with
  | [] =>
    let n : Int := Numeral.digitsValue whole
    integer? (if minus then -n else n)
  | '.' :: rest => do
    let part ← digits? Char.isDigit (rest.takeWhile (!isLetter ·))
    match rest.dropWhile (!isLetter ·) with
    | [] => float? minus whole part 0
    | _ :: tail => float? minus whole part (← exponent? tail)
  | _ :: tail => do float? minus whole [] (← exponent? tail)

/-- A number. -/
def number? (cs : List Char) : Option Value :=
  match cs with
  | '0' :: 'x' :: rest => based? 16 rest
  | '0' :: 'o' :: rest => based? 8 rest
  | '0' :: 'b' :: rest => based? 2 rest
  | _ =>
    let (minus, body) := Numeral.sign cs
    if body = "inf".toList then some (.float (.infinite minus))
    else if body = "nan".toList then some (.float .nan)
    else unsigned? minus body

/-! ### Dates and times -/

/-- A number of a fixed count of decimal digits at the front of a text. -/
def fixed? (count : Nat) (cs : List Char) : Option (Nat × List Char) :=
  let ds := cs.take count
  if ds.length = count ∧ ds.all Char.isDigit then
    some (Numeral.digitsValue ds, cs.drop count)
  else none

/-- The text after a given character. -/
def after? (c : Char) : List Char → Option (List Char)
  | d :: cs => if d = c then some cs else none
  | [] => none

/-- A number within limits. -/
def within? (low high n : Nat) : Option Nat := if low ≤ n ∧ n ≤ high then some n else none

/-- The year has a 29th of February. -/
def isLeap (year : Nat) : Bool := year % 4 == 0 && (year % 100 != 0 || year % 400 == 0)

/-- The number of days of a month. -/
def daysOf (year month : Nat) : Nat :=
  if month = 2 then (if isLeap year then 29 else 28)
  else if month = 4 ∨ month = 6 ∨ month = 9 ∨ month = 11 then 30
  else 31

/-- A number with a leading zero if it has one digit. -/
def twoDigits (n : Nat) : List Char :=
  if n < 10 then '0' :: Nat.toDigits 10 n else Nat.toDigits 10 n

/-- A date, as its text. -/
def date? (cs : List Char) : Option (List Char × List Char) := do
  let (year, rest) ← fixed? 4 cs
  let (month, rest) ← fixed? 2 (← after? '-' rest)
  let month ← within? 1 12 month
  let (day, rest) ← fixed? 2 (← after? '-' rest)
  let _ ← within? 1 (daysOf year month) day
  some (cs.take 10, rest)

/-- A fraction of a second, as its text: nine digits at most, and no zero at the end. -/
def fraction? : List Char → Option (List Char × List Char)
  | '.' :: cs =>
    let ds := cs.takeWhile Char.isDigit
    if ds = [] then none
    else
      let kept := ((ds.take 9).reverse.dropWhile (· = '0')).reverse
      some (if kept = [] then [] else '.' :: kept, cs.dropWhile Char.isDigit)
  | cs => some ([], cs)

/-- A time, as its text. -/
def time? (cs : List Char) : Option (List Char × List Char) := do
  let (hour, rest) ← fixed? 2 cs
  let _ ← within? 0 23 hour
  let (minute, rest) ← fixed? 2 (← after? ':' rest)
  let _ ← within? 0 59 minute
  let (second, rest) ← fixed? 2 (← after? ':' rest)
  let _ ← within? 0 60 second
  let (fraction, rest) ← fraction? rest
  some (cs.take 8 ++ fraction, rest)

/-- A distance from universal time, as its text; there may be none. -/
def offset? : List Char → Option (List Char)
  | [] => some []
  | ['Z'] => some ['Z']
  | ['z'] => some ['Z']
  | c :: cs =>
    if c = '+' ∨ c = '-' then do
      let (hours, rest) ← fixed? 2 cs
      let _ ← within? 0 23 hours
      let (minutes, rest) ← fixed? 2 (← after? ':' rest)
      let _ ← within? 0 59 minutes
      if rest ≠ [] then none
      else
        let sign := if hours = 0 ∧ minutes = 0 then '+' else c
        some (sign :: twoDigits hours ++ ':' :: twoDigits minutes)
    else none

/-- A date, a time, or both, as its text. -/
def moment? (cs : List Char) : Option (List Char) :=
  match date? cs with
  | some (date, []) => some date
  | some (date, c :: rest) =>
    if c = 'T' ∨ c = 't' ∨ c = ' ' then do
      let (time, rest) ← time? rest
      some (date ++ 'T' :: time ++ (← offset? rest))
    else none
  | none => do
    let (time, rest) ← time? cs
    if rest = [] then some time else none

/-! ### Scalars -/

/-- The character may stand in a scalar. -/
def isScalar (c : Char) : Bool :=
  c.isAlphanum || c == '_' || c == '-' || c == '+' || c == '.' || c == ':'

/-- The characters of a scalar at the front of a text: a blank between a date and a time belongs to
it. -/
def scalarChars (cs : List Char) : List Char × List Char :=
  let head := cs.takeWhile isScalar
  match cs.dropWhile isScalar with
  | ' ' :: c :: rest =>
    if c.isDigit ∧ (date? head).map (·.2) = some [] then
      (head ++ ' ' :: (c :: rest).takeWhile isScalar, (c :: rest).dropWhile isScalar)
    else (head, ' ' :: c :: rest)
  | rest => (head, rest)

/-- The value of a scalar. -/
def scalarValue? (cs : List Char) : Option Value :=
  if cs = "true".toList then some (.boolean true)
  else if cs = "false".toList then some (.boolean false)
  else match moment? cs with
    | some text => some (.string (String.ofList text))
    | none => number? cs

end CatalogRules.Toml

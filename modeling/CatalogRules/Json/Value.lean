import CatalogRules.Decimal.Shortest
import CatalogRules.Decimal.Word
import CatalogRules.Keyed

/-! # JSON values

A number is an integer of the range `[-2⁶³, 2⁶⁴)` or a finite double. An object is a map in order of
insertion, so its keys are distinct and their order carries meaning. -/

namespace CatalogRules.Json

/-- A number of a document. -/
inductive Number where
  | int (n : Int)
  | double (x : Double)
  deriving DecidableEq, Repr

/-- A JSON value. -/
inductive Value where
  | null
  | bool (b : Bool)
  | number (n : Number)
  | string (s : String)
  | array (items : List Value)
  | object (fields : List (String × Value))
  deriving Repr, Inhabited

namespace Number

/-- The characters of a number: integers in full, doubles by their shortest decimal. -/
def chars : Number → List Char
  | .int n => if n < 0 then '-' :: Nat.toDigits 10 n.natAbs else Nat.toDigits 10 n.natAbs
  | .double x => x.chars

/-- The text of a number. -/
def text (n : Number) : String := String.ofList n.chars

/-- The number as an integer of 64 bits with sign. -/
def toSigned? : Number → Option Int
  | .int n => if n < Word.half then some n else none
  | .double _ => none

end Number

namespace Value

/-- The value of a field of an object. -/
def field? (k : String) : Value → Option Value
  | .object fields => fields.lookup k
  | _ => none

/-- An array of texts. -/
def ofStrings (ss : List String) : Value := .array (ss.map .string)

mutual

/-- Equality of values, in which the order of an object's fields does not count. -/
def agrees : Value → Value → Bool
  | .null, .null => true
  | .bool a, .bool b => a == b
  | .number a, .number b => a == b
  | .string a, .string b => a == b
  | .array xs, .array ys => agreesItems xs ys
  | .object fs, .object gs => fs.length == gs.length && agreesFields fs gs
  | _, _ => false

/-- Two lists of values agree one by one. -/
def agreesItems : List Value → List Value → Bool
  | [], [] => true
  | x :: xs, y :: ys => agrees x y && agreesItems xs ys
  | _, _ => false

/-- Each field has a partner of the same key that agrees with it. -/
def agreesFields : List (String × Value) → List (String × Value) → Bool
  | [], _ => true
  | (k, v) :: fs, gs =>
    (match gs.lookup k with
      | some w => agrees v w
      | none => false) && agreesFields fs gs

end

end Value
end CatalogRules.Json

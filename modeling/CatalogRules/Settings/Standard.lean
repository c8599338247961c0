import CatalogRules.Keyed
import CatalogRules.Settings.Library
import CatalogRules.Text.Part
import CatalogRules.Toml.Document

/-! # The standard library of settings

A key writes a path with points between its parts. A table is laid over another value field by
field, and everything else replaces what is there; so a table without fields leaves a value that is
no table as it is. A variable is named by the lead `CATALOG_` and the path of its setting, with two
underscores between the parts. Conversion is lenient: numbers and truth values may be written as
texts, and either may stand for the other. -/

namespace CatalogRules.Settings.Standard

open Toml (Value)

/-! ### Paths -/

/-- The character may stand in a part of a path. -/
def isPart (c : Char) : Bool := c.isAlphanum || c == '_' || c == '-'

/-- The path that a key stands for: parts with points between them. A key that cannot be taken apart
stands for itself. -/
def pathOf (key : String) : List String :=
  let parts := Text.splitAt '.' key.toList
  if parts.all fun p => p ≠ [] && p.all isPart then parts.map String.ofList else [key]

/-! ### Values on top of each other -/

/-- The fields of what is there. -/
def fieldsOf (old : Option Value) : List (String × Value) := old.elim [] Value.fields

mutual

/-- A value laid over what is there. -/
def lay (old : Option Value) : Value → Value
  | .table fs => if fs.isEmpty then old.getD (.table []) else .table (layFields (fieldsOf old) fs)
  | v => v

/-- Fields laid over others. -/
def layFields (old : List (String × Value)) : List (String × Value) → List (String × Value)
  | [] => old
  | (k, v) :: rest => layFields (Keyed.put k (lay (old.lookup k) v) old) rest

end

/-- The value of a single setting: tables with one field each along a path. -/
def nest : List String → Value → Value
  | [], v => v
  | k :: ks, v => .table [(k, nest ks v)]

/-- Settings with a value set under a key. -/
def set (settings : Value) (key : String) (v : Value) : Value :=
  lay (some settings) (nest (pathOf key) v)

/-! ### Files -/

/-- The fields of the table that a text writes. -/
def fields? (text : String) : Option (List (String × Value)) :=
  (Toml.ofText? (String.ofList (Toml.dropMark text.toList))).map Value.fields

/-- The fields in the file of a path. Without the file, one whose name goes on by an extension is
read in its place; of the extensions only that of TOML is known here. -/
def file? (files : List (String × String)) (path : String) : Option (List (String × Value)) :=
  match files.lookup path with
  | some text => if Nameless path then some [] else fields? text
  | none =>
    match files.lookup (path ++ ".toml") with
    | some text => fields? text
    | none => some []

/-! ### Variables -/

/-- What the names of the variables begin with. -/
def lead : String := "catalog_"

/-- A letter in lower case. Of the letters outside ASCII only the Kelvin sign has a lower case in
ASCII. -/
def lower (c : Char) : Char := if c.toNat = 0x212A then 'k' else c.toLower

/-- The text with points in place of pairs of underscores. -/
def pointed : List Char → List Char
  | '_' :: '_' :: cs => '.' :: pointed cs
  | c :: cs => c :: pointed cs
  | [] => []

/-- The key and the value that a variable gives. -/
def ofVariable? (name text : String) : Option (String × Value) := do
  let rest ← Text.dropLead? lead.toList (name.toList.map lower)
  some (String.ofList (pointed rest), variableValue text)

/-! ### Conversion -/

/-- The words for a truth value besides the digit. -/
def truthWord? (s : String) : Option Bool :=
  if ["true", "on", "yes"].any (Text.sameIgnoringCase · s) then some true
  else if ["false", "off", "no"].any (Text.sameIgnoringCase · s) then some false
  else none

/-- A value as a text. -/
def text? : Value → Option String
  | .string s => some s
  | .boolean b => some (if b then "true" else "false")
  | .integer n => some (toString n)
  | .float x => some x.text
  | _ => none

/-- A value as a truth value. -/
def truth? : Value → Option Bool
  | .boolean b => some b
  | .integer n => some (n ≠ 0)
  | .float x => some x.isNonzero
  | .string s => if s = "1" then some true else if s = "0" then some false else truthWord? s
  | _ => none

/-- The greatest number of 64 bits. -/
def naturalMax : Nat := Word.bound - 1

/-- A text as a number of 64 bits: digits, with a plus sign in front or not. -/
def naturalOfText? (s : String) : Option Nat :=
  let ds := match s.toList with
    | '+' :: ds => ds
    | ds => ds
  if ds ≠ [] ∧ ds.all Char.isDigit ∧ Numeral.digitsValue ds ≤ naturalMax then
    some (Numeral.digitsValue ds)
  else none

/-- A value as a number of 64 bits. -/
def natural? : Value → Option Nat
  | .integer n => if 0 ≤ n then some n.toNat else none
  | .boolean b => some (if b then 1 else 0)
  | .float x => some (x.toNatWithin naturalMax)
  | .string s =>
    match truthWord? s with
    | some b => some (if b then 1 else 0)
    | none => naturalOfText? s
  | _ => none

/-- Numbers of 16 bits are below this bound. -/
def shortBound : Nat := 65536

/-- A value as a number of 16 bits. -/
def short? (v : Value) : Option Nat := (natural? v).filter (· < shortBound)

end Standard

/-- The library in use. -/
instance : Library where
  fields? := Standard.fields?
  file? := Standard.file?
  ofVariable? := Standard.ofVariable?
  lay := Standard.lay
  set := Standard.set
  text? := Standard.text?
  truth? := Standard.truth?
  natural? := Standard.natural?
  short? := Standard.short?

end CatalogRules.Settings

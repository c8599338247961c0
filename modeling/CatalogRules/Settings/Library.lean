import CatalogRules.Decimal.Word
import CatalogRules.Toml.Value

/-! # Libraries of settings

Settings are gathered by a library (`Settings.Library`) from files, which are TOML documents, and
from environment variables. What the program uses of the library is that it reads a file if there is
one, that it tells which setting a variable is for, that it sets a value under a key over what is
there, and that it converts values to the types of the settings. -/

namespace CatalogRules.Settings

open Toml (Value)

/-- A library of settings. -/
class Library where
  /-- The fields of the table that a text writes; `none` if it cannot be read. -/
  fields? : String → Option (List (String × Value))
  /-- The fields in the file of a path, which may be missing; `none` if it cannot be read. -/
  file? : List (String × String) → String → Option (List (String × Value))
  /-- The key and the value that a variable gives by its name and its text, if it gives one. -/
  ofVariable? : String → String → Option (String × Value)
  /-- A value laid over what is there, if anything is. -/
  lay : Option Value → Value → Value
  /-- Settings with a value set under a key. -/
  set : Value → String → Value → Value
  /-- A value as a text. -/
  text? : Value → Option String
  /-- A value as a truth value. -/
  truth? : Value → Option Bool
  /-- A value as a number of 64 bits. -/
  natural? : Value → Option Nat
  /-- A value as a number of 16 bits. -/
  short? : Value → Option Nat

/-! ### Texts of variables -/

/-- A whole number of 64 bits with sign. -/
def integer? (s : String) : Option Int :=
  let (minus, ds) := Numeral.sign s.toList
  if ds ≠ [] ∧ ds.all Char.isDigit then
    let n : Int := if minus then -(Numeral.digitsValue ds : Int) else Numeral.digitsValue ds
    if Word.isSigned n then some n else none
  else none

/-- What the text of a variable stands for: a truth value, a number, or the text itself. -/
def variableValue (s : String) : Value :=
  if Text.sameIgnoringCase s "true" then .boolean true
  else if Text.sameIgnoringCase s "false" then .boolean false
  else match integer? s with
    | some n => .integer n
    | none =>
      match Extended.ofText? s with
      | some x => .float x
      | none => .string s

/-! ### Paths of files -/

/-- The path ends in a name that has nothing in front of the point. Such a file has no extension, so
that its format is not known. -/
def Nameless (path : String) : Prop := path = ".toml" ∨ "/.toml".toList <:+ path.toList

instance (path : String) : Decidable (Nameless path) := by unfold Nameless; infer_instance

end CatalogRules.Settings

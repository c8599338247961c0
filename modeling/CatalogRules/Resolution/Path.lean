import CatalogRules.Json.Writer
import CatalogRules.Text.Part

/-! # Property paths

A property path is a list of segments, written with points between them. `walk` follows field names
into a value: arrays are passed through, whatever their nesting, and what is left at the end of the
names is found, unless it is an array itself. -/

namespace CatalogRules

open Json (Value)

/-- A property path. -/
abbrev Path := List String

namespace Path

/-- The path that a text writes. -/
def ofText (s : String) : Path := (Text.splitAt '.' s.toList).map String.ofList

/-- The written path. -/
def text (p : Path) : String := String.ofList (Text.joinWith '.' (p.map String.toList))

theorem text_ofText (s : String) : (ofText s).text = s := by
  simp [ofText, text, Text.joinWith_splitAt]

mutual

/-- The values found at the end of some field names, in document order. -/
def walk : Value → List String → List Value
  | .array items, names => walkItems items names
  | v, [] => [v]
  | .object fields, name :: names => walkField fields name names
  | _, _ :: _ => []

/-- The values found in the items of an array. -/
def walkItems : List Value → List String → List Value
  | [], _ => []
  | v :: vs, names => walk v names ++ walkItems vs names

/-- The values found in the field of the given name. -/
def walkField : List (String × Value) → String → List String → List Value
  | [], _, _ => []
  | (k, v) :: rest, name, names =>
    if k = name then walk v names else walkField rest name names

end

/-- The text of a value that was found; `null` counts as missing. -/
def render : Value → Option String
  | .null => none
  | .string s => some s
  | .number n => some n.text
  | .bool b => some (if b then "true" else "false")
  | v => some v.text

/-- The texts found at the end of some field names. -/
def values (v : Value) (names : List String) : List String := (walk v names).filterMap render

end Path
end CatalogRules

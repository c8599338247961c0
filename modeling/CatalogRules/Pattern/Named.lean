import CatalogRules.Pattern.CharClass
import CatalogRules.Text.Property
import CatalogRules.Text.Script

/-! # Named classes

The classes that a pattern can name: the bracketed ASCII classes, the one-letter classes for digits,
blanks and characters of words, and the classes of a Unicode property, category or script. Names of
properties are compared without regard to case, blanks, hyphens and underscores. -/

namespace CatalogRules.Pattern.Named

open CharClass

/-- The ranges of an ASCII class. -/
def ascii? : String → Option (List (Nat × Nat))
  | "alnum" => some [(48, 57), (65, 90), (97, 122)]
  | "alpha" => some [(65, 90), (97, 122)]
  | "ascii" => some [(0, 127)]
  | "blank" => some [(9, 9), (32, 32)]
  | "cntrl" => some [(0, 31), (127, 127)]
  | "digit" => some [(48, 57)]
  | "graph" => some [(33, 126)]
  | "lower" => some [(97, 122)]
  | "print" => some [(32, 126)]
  | "punct" => some [(33, 47), (58, 64), (91, 96), (123, 126)]
  | "space" => some [(9, 13), (32, 32)]
  | "upper" => some [(65, 90)]
  | "word" => some [(48, 57), (65, 90), (95, 95), (97, 122)]
  | "xdigit" => some [(48, 57), (65, 70), (97, 102)]
  | _ => none

/-- The class of `\d`, `\s` or `\w`. -/
def letter (c : Char) (unicode : Bool) : CharClass :=
  if unicode then
    if c = 'd' then .named Text.isDecimal
    else if c = 's' then .named fun n => Text.isBlank (Char.ofNat n)
    else .named Text.isWord
  else
    let name := if c = 'd' then "digit" else if c = 's' then "space" else "word"
    ofRanges ((ascii? name).getD [])

/-- The characters of a name that count, in lower case. -/
def significant (name : List Char) : List Char :=
  (name.filter fun c => c.toNat < 128 && c != ' ' && c != '_' && c != '-').map Char.toLower

/-- The form in which names of properties are compared: a leading `is` does not count, but the name
`isc` stands for itself. -/
def normal (name : List Char) : String :=
  if (name.take 2).map Char.toLower = ['i', 's'] then
    let rest := significant (name.drop 2)
    String.ofList (if rest = ['c'] then ['i', 's', 'c'] else rest)
  else String.ofList (significant name)

/-- The class of the code points of some categories. -/
def ofCategories (cs : List Text.Category) : CharClass :=
  .named fun n => cs.contains (Text.Category.ofCode n)

/-- The class of a general category or of a group of them. -/
def category? (name : String) : Option CharClass :=
  if name = "any" then some (.named fun _ => true)
  else if name = "ascii" then some (.range 0 127)
  else if name = "assigned" then some (.negate (ofCategories [.cn]))
  else do
    let entry ← Text.Category.named.find? fun e => e.1.contains name
    some (ofCategories entry.2)

/-- The class of a script. -/
def script? (name : String) : Option CharClass := do
  let short ← Text.Script.named? name
  some (.named fun n => Text.Script.ofCode n == short)

/-- The class of a property with two values. -/
def property? (name : String) : Option CharClass :=
  if ["alphabetic", "alpha"].contains name then some (.named Text.isAlphabetic)
  else if ["lowercase", "lower"].contains name then some (.named Text.isLowercase)
  else if ["uppercase", "upper"].contains name then some (.named Text.isUppercase)
  else if ["whitespace", "wspace", "space"].contains name then
    some (.named fun n => Text.isBlank (Char.ofNat n))
  else if name = "cased" then
    some (.named fun n =>
      Text.isLowercase n || Text.isUppercase n || Text.Category.ofCode n == .lt)
  else if ["asciihexdigit", "ahex"].contains name then
    some (ofRanges [(48, 57), (65, 70), (97, 102)])
  else if ["hexdigit", "hex"].contains name then
    some (ofRanges [(48, 57), (65, 70), (97, 102), (0xFF10, 0xFF19), (0xFF21, 0xFF26),
      (0xFF41, 0xFF46)])
  else if ["joincontrol", "joinc"].contains name then some (.range 0x200C 0x200D)
  else if ["noncharactercodepoint", "nchar"].contains name then
    some (.named fun n => (0xFDD0 ≤ n && n ≤ 0xFDEF) || n % 0x10000 ≥ 0xFFFE)
  else if ["variationselector", "vs"].contains name then
    some (ofRanges [(0x180B, 0x180D), (0x180F, 0x180F), (0xFE00, 0xFE0F), (0xE0100, 0xE01EF)])
  else if ["regionalindicator", "ri"].contains name then some (.range 0x1F1E6 0x1F1FF)
  else none

/-- The class that a name alone stands for. -/
def byName? (name : List Char) : Option CharClass :=
  let n := normal name
  (if n = "cf" ∨ n = "sc" ∨ n = "lc" then none else property? n) <|> category? n <|> script? n

/-- The class of the code points with a given value of a property. -/
def byValue? (name value : List Char) : Option CharClass :=
  let n := normal name
  let v := normal value
  if ["gc", "generalcategory"].contains n then category? v
  else if ["sc", "script", "scx", "scriptextensions"].contains n then script? v
  else none

end CatalogRules.Pattern.Named

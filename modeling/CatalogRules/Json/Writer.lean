import CatalogRules.Json.Value

/-! # Writing JSON

The compact form: no blanks, fields in their order, characters outside ASCII as they are. In a
string the quote, the backslash and the control characters below `U+0020` are escaped. -/

namespace CatalogRules.Json

/-- A lower-case hexadecimal digit. -/
def hexDigit (n : Nat) : Char := Nat.digitChar n

/-- The written form of a character inside a string. -/
def escape (c : Char) : List Char :=
  if c = '"' then ['\\', '"']
  else if c = '\\' then ['\\', '\\']
  else if c.toNat < 0x20 then
    if c.toNat = 8 then ['\\', 'b']
    else if c.toNat = 9 then ['\\', 't']
    else if c.toNat = 10 then ['\\', 'n']
    else if c.toNat = 12 then ['\\', 'f']
    else if c.toNat = 13 then ['\\', 'r']
    else ['\\', 'u', '0', '0', hexDigit (c.toNat / 16), hexDigit (c.toNat % 16)]
  else [c]

/-- A string with its quotes. -/
def writeString (s : String) : List Char := '"' :: s.toList.flatMap escape ++ ['"']

mutual

/-- The written form of a value. -/
def write : Value → List Char
  | .null => "null".toList
  | .bool b => if b then "true".toList else "false".toList
  | .number n => n.chars
  | .string s => writeString s
  | .array items => '[' :: writeItems items ++ [']']
  | .object fields => '\x7b' :: writeFields fields ++ ['\x7d']

/-- Values with commas between them. -/
def writeItems : List Value → List Char
  | [] => []
  | [v] => write v
  | v :: vs => write v ++ ',' :: writeItems vs

/-- Fields with commas between them. -/
def writeFields : List (String × Value) → List Char
  | [] => []
  | [(k, v)] => writeString k ++ ':' :: write v
  | (k, v) :: fs => writeString k ++ ':' :: write v ++ ',' :: writeFields fs

end

/-- The compact text of a value. -/
def Value.text (v : Value) : String := String.ofList (write v)

/-! ### Indented form -/

/-- A line break and the indentation of a level. -/
def lineBreak (level : Nat) : List Char := '\n' :: List.replicate (2 * level) ' '

mutual

/-- The written form of a value at a level, with each item and each field on a line of its own. -/
def indented (level : Nat) : Value → List Char
  | .array [] => ['[', ']']
  | .object [] => ['\x7b', '\x7d']
  | .array items => '[' :: indentedItems (level + 1) items ++ lineBreak level ++ [']']
  | .object fields =>
    '\x7b' :: indentedFields (level + 1) fields ++ lineBreak level ++ ['\x7d']
  | v => write v

/-- Items on lines of their own. -/
def indentedItems (level : Nat) : List Value → List Char
  | [] => []
  | [v] => lineBreak level ++ indented level v
  | v :: vs => lineBreak level ++ indented level v ++ ',' :: indentedItems level vs

/-- Fields on lines of their own. -/
def indentedFields (level : Nat) : List (String × Value) → List Char
  | [] => []
  | [(k, v)] => lineBreak level ++ writeString k ++ ':' :: ' ' :: indented level v
  | (k, v) :: fs =>
    lineBreak level ++ writeString k ++ ':' :: ' ' :: indented level v ++
      ',' :: indentedFields level fs

end

/-- The text of a value on several lines. -/
def Value.indentedText (v : Value) : String := String.ofList (indented 0 v)

end CatalogRules.Json

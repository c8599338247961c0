import CatalogRules.Json.Numeral

/-! # JSON documents

A document is read in two steps. `Document.read?` follows the grammar of RFC 8259 and keeps all
fields of an object, repeated ones too; numerals too large for a double and strings with a lone
surrogate are kept as marks. What a document means is settled by the one who uses it: `toValue?`
takes it as a value and refuses the marks and too deep nesting, other readers (records, maps) look
at some fields and pass over the others without such demands. -/

namespace CatalogRules.Json

/-- The syntax tree of a document. -/
inductive Document where
  | null
  | bool (b : Bool)
  | number (n : Option Number)
  | string (s : Option String)
  | array (items : List Document)
  | object (fields : List (Option String × Document))
  deriving Inhabited

namespace Document

/-! ### Lexical elements -/

/-- The blanks between the elements of a document. -/
def isSpace (c : Char) : Bool := c == ' ' || c == '\n' || c == '\t' || c == '\r'

/-- The text without leading blanks. -/
def skip (cs : List Char) : List Char := cs.dropWhile isSpace

/-- The value of a hexadecimal digit. -/
def hex? (c : Char) : Option Nat :=
  if c.isDigit then some (c.toNat - '0'.toNat)
  else if 'a' ≤ c ∧ c ≤ 'f' then some (c.toNat - 'a'.toNat + 10)
  else if 'A' ≤ c ∧ c ≤ 'F' then some (c.toNat - 'A'.toNat + 10)
  else none

/-- The value of four hexadecimal digits. -/
def hex4? (a b c d : Char) : Option Nat := do
  some (4096 * (← hex? a) + 256 * (← hex? b) + 16 * (← hex? c) + (← hex? d))

/-- An element of a string: a character, or a 16-bit unit written by its number. -/
inductive Piece where
  | char (c : Char)
  | unit (n : Nat)

/-- The character that a backslash and a letter stand for. -/
def simpleEscape? (c : Char) : Option Char :=
  if c = '"' ∨ c = '\\' ∨ c = '/' then some c
  else if c = 'b' then some '\x08'
  else if c = 'f' then some '\x0c'
  else if c = 'n' then some '\n'
  else if c = 'r' then some '\r'
  else if c = 't' then some '\t'
  else none

/-- The pieces of a string up to the closing quote, and the text after it. -/
def pieces? : List Char → Option (List Piece × List Char)
  | [] => none
  | '"' :: rest => some ([], rest)
  | '\\' :: 'u' :: a :: b :: c :: d :: rest => do
    let n ← hex4? a b c d
    let (ps, rest) ← pieces? rest
    some (.unit n :: ps, rest)
  | '\\' :: e :: rest => do
    let c ← simpleEscape? e
    let (ps, rest) ← pieces? rest
    some (.char c :: ps, rest)
  | c :: rest =>
    if c.toNat < 0x20 ∨ c = '\\' then none
    else do
      let (ps, rest) ← pieces? rest
      some (.char c :: ps, rest)

/-- The characters of a list of pieces; `none` if a surrogate has no partner. -/
def assemble? : List Piece → Option (List Char)
  | [] => some []
  | .char c :: ps => do some (c :: (← assemble? ps))
  | .unit n :: ps =>
    if n < 0xD800 ∨ 0xDFFF < n then do some (Char.ofNat n :: (← assemble? ps))
    else match ps with
      | .unit m :: ps =>
        if n < 0xDC00 ∧ 0xDC00 ≤ m ∧ m ≤ 0xDFFF then do
          some (Char.ofNat (0x10000 + (n - 0xD800) * 0x400 + (m - 0xDC00)) :: (← assemble? ps))
        else none
      | _ => none

/-- A string after its opening quote. -/
def string? (cs : List Char) : Option (Option String × List Char) := do
  let (ps, rest) ← pieces? cs
  some ((assemble? ps).map String.ofList, rest)

/-- The digits at the front of a text, of which there must be one. -/
def digits? (cs : List Char) : Option (List Char × List Char) :=
  let ds := cs.takeWhile Char.isDigit
  if ds = [] then none else some (ds, cs.dropWhile Char.isDigit)

/-- The whole part of a numeral: no zero stands before another digit. -/
def whole? : List Char → Option (List Char × List Char)
  | '0' :: rest =>
    match rest with
    | c :: _ => if c.isDigit then none else some (['0'], rest)
    | [] => some (['0'], [])
  | cs => digits? cs

/-- The part after the point, if there is a point. -/
def part? : List Char → Option (Option (List Char) × List Char)
  | '.' :: rest => do
    let (ds, rest) ← digits? rest
    some (some ds, rest)
  | cs => some (none, cs)

/-- The exponent, if there is one. -/
def exponent? : List Char → Option (Option Exponent × List Char)
  | [] => some (none, [])
  | c :: rest =>
    if c = 'e' ∨ c = 'E' then do
      let (minus, rest) := match rest with
        | '+' :: r => (false, r)
        | '-' :: r => (true, r)
        | r => (false, r)
      let (ds, rest) ← digits? rest
      some (some ⟨minus, ds⟩, rest)
    else some (none, c :: rest)

/-- A numeral without its sign. -/
def unsigned? (negative : Bool) (cs : List Char) : Option (Option Number × List Char) := do
  let (whole, cs) ← whole? cs
  let (part, cs) ← part? cs
  let (exponent, cs) ← exponent? cs
  some (numeralValue negative whole part exponent, cs)

/-- A numeral. -/
def number? : List Char → Option (Option Number × List Char)
  | '-' :: cs => unsigned? true cs
  | cs => unsigned? false cs

/-- The text after a given word. -/
def word? (w : String) (d : Document) (cs : List Char) : Option (Document × List Char) :=
  let w := w.toList
  if w.isPrefixOf cs then some (d, cs.drop w.length) else none

/-! ### Values -/

mutual

/-- A value at the front of a text, and the text after it. -/
def value? : Nat → List Char → Option (Document × List Char)
  | 0, _ => none
  | fuel + 1, cs =>
    match skip cs with
    | [] => none
    | '"' :: rest => do
      let (s, rest) ← string? rest
      some (.string s, rest)
    | '[' :: rest =>
      match skip rest with
      | ']' :: rest => some (.array [], rest)
      | rest => do
        let (items, rest) ← items? fuel rest
        some (.array items, rest)
    | '\x7b' :: rest =>
      match skip rest with
      | '\x7d' :: rest => some (.object [], rest)
      | rest => do
        let (fields, rest) ← fields? fuel rest
        some (.object fields, rest)
    | c :: rest =>
      if c = 'n' then word? "null" .null (c :: rest)
      else if c = 't' then word? "true" (.bool true) (c :: rest)
      else if c = 'f' then word? "false" (.bool false) (c :: rest)
      else do
        let (n, rest) ← number? (c :: rest)
        some (.number n, rest)

/-- The items of an array up to its closing bracket. -/
def items? : Nat → List Char → Option (List Document × List Char)
  | 0, _ => none
  | fuel + 1, cs => do
    let (d, cs) ← value? fuel cs
    match skip cs with
    | ',' :: rest => do
      let (ds, rest) ← items? fuel rest
      some (d :: ds, rest)
    | ']' :: rest => some ([d], rest)
    | _ => none

/-- The fields of an object up to its closing brace. -/
def fields? : Nat → List Char → Option (List (Option String × Document) × List Char)
  | 0, _ => none
  | fuel + 1, cs =>
    match skip cs with
    | '"' :: rest => do
      let (k, rest) ← string? rest
      match skip rest with
      | ':' :: rest => do
        let (d, rest) ← value? fuel rest
        match skip rest with
        | ',' :: rest => do
          let (fs, rest) ← fields? fuel rest
          some ((k, d) :: fs, rest)
        | '\x7d' :: rest => some ([(k, d)], rest)
        | _ => none
      | _ => none
    | _ => none

end

/-- The document that makes up a whole text; only blanks may follow it. -/
def read? (text : String) : Option Document := do
  let cs := text.toList
  let (d, rest) ← value? (cs.length + 1) cs
  if (skip rest).isEmpty then some d else none

/-! ### Meaning as a value -/

mutual

/-- The document as a value with at most the given number of nested levels. -/
def toValue? (levels : Nat) : Document → Option Value
  | .null => some .null
  | .bool b => some (.bool b)
  | .number n => n.map .number
  | .string s => s.map .string
  | .array items =>
    if levels = 0 then none else (toValues? (levels - 1) items).map .array
  | .object fields =>
    if levels = 0 then none
    else (toFields? (levels - 1) fields).map fun fs => .object (Keyed.ofPairs fs)

/-- The items as values. -/
def toValues? (levels : Nat) : List Document → Option (List Value)
  | [] => some []
  | d :: ds => do some ((← toValue? levels d) :: (← toValues? levels ds))

/-- The fields with their values. -/
def toFields? (levels : Nat) : List (Option String × Document) → Option (List (String × Value))
  | [] => some []
  | (k, d) :: fs => do
    let k ← k
    let v ← toValue? levels d
    some ((k, v) :: (← toFields? levels fs))

end

mutual

/-- A value as a document. -/
def ofValue : Value → Document
  | .null => .null
  | .bool b => .bool b
  | .number n => .number (some n)
  | .string s => .string (some s)
  | .array items => .array (ofValues items)
  | .object fields => .object (ofFields fields)

/-- Values as documents. -/
def ofValues : List Value → List Document
  | [] => []
  | v :: vs => ofValue v :: ofValues vs

/-- Fields as fields of documents. -/
def ofFields : List (String × Value) → List (Option String × Document)
  | [] => []
  | (k, v) :: fs => (some k, ofValue v) :: ofFields fs

end

end Document

/-- The number of nested arrays and objects that a value may have. -/
def maxLevels : Nat := 127

/-- The value that a text writes. -/
def Value.ofText? (text : String) : Option Value := do
  (← Document.read? text).toValue? maxLevels

end CatalogRules.Json

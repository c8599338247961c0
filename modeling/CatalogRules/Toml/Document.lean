import CatalogRules.Toml.Scalar
import CatalogRules.Toml.Tables
import CatalogRules.Toml.Text

/-! # TOML documents

A document is a sequence of lines: headers, which open tables, and keys with their values. Arrays
may take several lines, tables in braces may not. -/

namespace CatalogRules.Toml

/-! ### Values -/

mutual

/-- A value, with a bound on the number of steps. -/
def value? : Nat → Reader Value
  | 0, _ => none
  | fuel + 1, cs =>
    match cs with
    | [] => none
    | '[' :: rest => do
      let (items, rest) ← items? fuel rest
      some (.array items, rest)
    | '\x7b' :: rest =>
      match skipBlanks rest with
      | '\x7d' :: rest => some (.table [], rest)
      | rest => do
        let (fs, rest) ← fields? fuel [] rest
        some (.table (Node.toFields fs), rest)
    | c :: rest =>
      if c = '"' ∨ c = '\'' then do
        let (s, rest) ← string? (c :: rest)
        some (.string s, rest)
      else do
        let (word, rest) := scalarChars (c :: rest)
        some (← scalarValue? word, rest)

/-- The items of an array up to its closing bracket; the last one may be followed by a comma. -/
def items? : Nat → Reader (List Value)
  | 0, _ => none
  | fuel + 1, cs =>
    match skipLines cs.length cs with
    | ']' :: rest => some ([], rest)
    | cs => do
      let (v, cs) ← value? fuel cs
      match skipLines cs.length cs with
      | ',' :: rest => do
        let (vs, rest) ← items? fuel rest
        some (v :: vs, rest)
      | ']' :: rest => some ([v], rest)
      | _ => none

/-- The fields of a table in braces up to the closing one. -/
def fields? : Nat → Fields → Reader Fields
  | 0, _, _ => none
  | fuel + 1, done, cs => do
    let (key, cs) ← key? cs
    match cs with
    | '=' :: rest => do
      let (v, rest) ← value? fuel (skipBlanks rest)
      let done ← Fields.put? key v .header done
      match skipBlanks rest with
      | ',' :: rest => fields? fuel done rest
      | '\x7d' :: rest => some (done, rest)
      | _ => none
    | _ => none

end

/-! ### Lines -/

/-- What has been read of a document: its tables, and the header of the open one. -/
structure Progress where
  root : Fields
  header : List String

/-- Opens the table of a header. -/
def Progress.enter? (p : Progress) (key : List String)
    (f : String → Origin → Fields → Option Fields) : Option Progress := do
  let (before, k) ← Fields.splitLast? key
  some ⟨← Fields.edit false (f k) before .header p.root, key⟩

/-- Gives a key of the open table its value. -/
def Progress.assign? (p : Progress) (key : List String) (v : Value) : Option Progress := do
  some { p with root := ← Fields.edit false (Fields.put? key v) p.header .header p.root }

/-- A line with a header, a key and its value, or nothing. -/
def line? (p : Progress) (cs : List Char) : Option (Progress × List Char) := do
  let (p, cs) ← match skipBlanks cs with
    | '[' :: '[' :: rest => do
      let (key, rest) ← key? rest
      match rest with
      | ']' :: ']' :: rest => some (← p.enter? key Fields.openNext, rest)
      | _ => none
    | '[' :: rest => do
      let (key, rest) ← key? rest
      match rest with
      | ']' :: rest => some (← p.enter? key Fields.openTable, rest)
      | _ => none
    | cs =>
      if cs.isEmpty ∨ cs.head? = some '#' ∨ (newline? cs).isSome then some (p, cs)
      else do
        let (key, rest) ← key? cs
        match rest with
        | '=' :: rest => do
          let (v, rest) ← value? (2 * rest.length + 2) (skipBlanks rest)
          some (← p.assign? key v, rest)
        | _ => none
  some (p, ← lineEnd? cs)

/-- The lines of a document, with a bound on their number. -/
def lines : Nat → Progress → List Char → Option Progress
  | 0, _, _ => none
  | _ + 1, p, [] => some p
  | fuel + 1, p, cs => do
    let (p, cs) ← line? p cs
    lines fuel p cs

/-- The text without a byte order mark. -/
def dropMark : List Char → List Char
  | '\uFEFF' :: cs => cs
  | cs => cs

/-- The table that a text writes. -/
def ofText? (text : String) : Option Value := do
  let cs := dropMark text.toList
  let p ← lines (cs.length + 1) ⟨[], []⟩ cs
  some (.table (Node.toFields p.root))

end CatalogRules.Toml

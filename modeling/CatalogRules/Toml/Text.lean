import CatalogRules.Json.Document

/-! # Texts in TOML

Blanks, comments, the four sorts of strings, and keys. A reader takes the characters at the front of
a text and returns what it read and the text after it. -/

namespace CatalogRules.Toml

/-- Something read from the front of a text, and the text after it. -/
abbrev Reader (α : Type) := List Char → Option (α × List Char)

/-! ### Blanks and comments -/

/-- The text without leading blanks. -/
def skipBlanks (cs : List Char) : List Char := cs.dropWhile fun c => c == ' ' || c == '\t'

/-- The text after a line break. -/
def newline? : List Char → Option (List Char)
  | '\n' :: cs => some cs
  | '\r' :: '\n' :: cs => some cs
  | _ => none

/-- The character may stand in a comment or a string; control characters other than the tabulator
may not. -/
def isPrintable (c : Char) : Bool := c == '\t' || (0x20 ≤ c.toNat && c.toNat ≠ 0x7F)

/-- The text from the end of the line on, without a comment. -/
def skipComment : List Char → List Char
  | '#' :: cs => cs.dropWhile isPrintable
  | cs => cs

/-- The text after the end of the line, before which there may be a comment. -/
def lineEnd? (cs : List Char) : Option (List Char) :=
  match skipComment (skipBlanks cs) with
  | [] => some []
  | cs => newline? cs

/-- The text without leading blanks, line breaks and comments, whose number is bounded. -/
def skipLines : Nat → List Char → List Char
  | 0, cs => cs
  | fuel + 1, cs =>
    let cs := skipComment (skipBlanks cs)
    match newline? cs with
    | some rest => skipLines fuel rest
    | none => cs

/-! ### Strings -/

/-- The value of hexadecimal digits. -/
def hexValue? (cs : List Char) : Option Nat :=
  cs.foldlM (fun n c => do some (16 * n + (← Json.Document.hex? c))) 0

/-- The character of a number, if it is a scalar value. -/
def scalar? (n : Nat) : Option Char :=
  if n < 0xD800 ∨ (0xDFFF < n ∧ n < 0x110000) then some (Char.ofNat n) else none

/-- A character written by its number in a given number of digits. -/
def numbered? (digits : Nat) : Reader Char := fun cs =>
  if cs.length < digits then none
  else do
    let c ← scalar? (← hexValue? (cs.take digits))
    some (c, cs.drop digits)

/-- The character that is written after a backslash. -/
def escape? : Reader Char
  | 'b' :: cs => some ('\x08', cs)
  | 't' :: cs => some ('\t', cs)
  | 'n' :: cs => some ('\n', cs)
  | 'f' :: cs => some ('\x0c', cs)
  | 'r' :: cs => some ('\r', cs)
  | '"' :: cs => some ('"', cs)
  | '\\' :: cs => some ('\\', cs)
  | 'u' :: cs => numbered? 4 cs
  | 'U' :: cs => numbered? 8 cs
  | _ => none

/-- A string in double quotes after the opening one, with a bound on its length. -/
def quoted? : Nat → Reader (List Char)
  | 0, _ => none
  | _ + 1, [] => none
  | _ + 1, '"' :: cs => some ([], cs)
  | fuel + 1, '\\' :: cs => do
    let (c, cs) ← escape? cs
    let (s, cs) ← quoted? fuel cs
    some (c :: s, cs)
  | fuel + 1, c :: cs =>
    if isPrintable c then do
      let (s, cs) ← quoted? fuel cs
      some (c :: s, cs)
    else none

/-- A string in single quotes after the opening one. -/
def literal? : Reader (List Char)
  | [] => none
  | '\'' :: cs => some ([], cs)
  | c :: cs =>
    if isPrintable c then do
      let (s, cs) ← literal? cs
      some (c :: s, cs)
    else none

/-- The end of a string of several lines: three quotes, before which one or two more belong to the
string. -/
def closing? (quote : Char) (cs : List Char) : Option (List Char × List Char) :=
  let n := (cs.takeWhile (· = quote)).length
  if n < 3 then none
  else some (List.replicate (min n 5 - 3) quote, cs.drop (min n 5))

/-- The text without leading blanks and line breaks, whose number is bounded. -/
def skipBreaks : Nat → List Char → List Char
  | 0, cs => cs
  | fuel + 1, cs =>
    match newline? (skipBlanks cs) with
    | some rest => skipBreaks fuel rest
    | none => skipBlanks cs

/-- The text after a backslash at the end of a line, where blanks may follow the backslash: blanks
and line breaks do not count. -/
def joinedLine? (cs : List Char) : Option (List Char) :=
  (newline? (skipBlanks cs)).map fun rest => skipBreaks rest.length rest

/-- A string of several lines after the opening quotes, with a bound on its length. In double quotes
the backslash has a meaning. -/
def lines? (quote : Char) : Nat → Reader (List Char)
  | 0, _ => none
  | fuel + 1, cs =>
    match closing? quote cs with
    | some found => some found
    | none =>
      match newline? cs with
      | some rest => do
        let (s, rest) ← lines? quote fuel rest
        some ('\n' :: s, rest)
      | none =>
        match cs with
        | [] => none
        | c :: rest =>
          if c = '\\' ∧ quote = '"' then
            match joinedLine? rest with
            | some rest => lines? quote fuel rest
            | none => do
              let (c, rest) ← escape? rest
              let (s, rest) ← lines? quote fuel rest
              some (c :: s, rest)
          else if isPrintable c then do
            let (s, rest) ← lines? quote fuel rest
            some (c :: s, rest)
          else none

/-- A string of several lines; a line break right after the opening quotes does not belong to it. -/
def block? (quote : Char) : Reader (List Char) := fun cs =>
  let cs := (newline? cs).getD cs
  lines? quote (cs.length + 1) cs

/-- A string on one line. -/
def inlineString? : Reader String
  | '"' :: cs => (quoted? (cs.length + 1) cs).map fun (s, cs) => (String.ofList s, cs)
  | '\'' :: cs => (literal? cs).map fun (s, cs) => (String.ofList s, cs)
  | _ => none

/-- A string. -/
def string? : Reader String
  | '"' :: '"' :: '"' :: cs => (block? '"' cs).map fun (s, cs) => (String.ofList s, cs)
  | '\'' :: '\'' :: '\'' :: cs => (block? '\'' cs).map fun (s, cs) => (String.ofList s, cs)
  | cs => inlineString? cs

/-! ### Keys -/

/-- The character may stand in a key without quotes. -/
def isBare (c : Char) : Bool := c.isAlphanum || c == '_' || c == '-'

/-- A key without points. -/
def simpleKey? : Reader String := fun cs =>
  let bare := cs.takeWhile isBare
  if bare = [] then inlineString? cs
  else some (String.ofList bare, cs.dropWhile isBare)

/-- A key, whose number of parts is bounded; blanks after it are skipped. -/
def keyWithin? : Nat → Reader (List String)
  | 0, _ => none
  | fuel + 1, cs => do
    let (k, cs) ← simpleKey? (skipBlanks cs)
    match skipBlanks cs with
    | '.' :: cs => do
      let (ks, cs) ← keyWithin? fuel cs
      some (k :: ks, cs)
    | cs => some ([k], cs)

/-- A key. -/
def key? : Reader (List String) := fun cs => keyWithin? (cs.length + 1) cs

end CatalogRules.Toml

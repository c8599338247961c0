import CatalogRules.Pattern.Library
import CatalogRules.Pattern.Named
import CatalogRules.Pattern.Regex

/-! # Reading patterns

A library of regular expressions to run the program with. Its syntax: alternatives, repetitions,
groups with or without a name, flags for a group or for the rest of one, character classes with set
operations, escapes and assertions. Besides the expression the reader yields the nesting depth of
the pattern and a weight that grows with the size of the automaton for it; both are bounded. -/

namespace CatalogRules.Pattern

namespace Reader

/-- The flags in force at a place of a pattern. -/
structure Flags where
  caseless : Bool := false
  multiline : Bool := false
  dotAll : Bool := false
  unicode : Bool := true
  verbose : Bool := false
  crlf : Bool := false

/-- A part of a pattern: its expression, nesting depth and weight. -/
structure Piece where
  regex : Regex Atom
  depth : Nat
  weight : Nat

/-- An item of a sequence; flags can not be repeated. -/
structure Item where
  piece : Piece
  repeatable : Bool

/-- The weight of one state of an automaton. -/
def stateWeight : Nat := 32

/-! ### Blanks and numbers -/

/-- In verbose mode, the text without leading blanks and comments. -/
def skipFrom (inComment : Bool) : List Char → List Char
  | [] => []
  | c :: cs =>
    if inComment then skipFrom (c != '\n') cs
    else if Text.isBlank c then skipFrom false cs
    else if c = '#' then skipFrom true cs
    else c :: cs

/-- The text after blanks and comments that do not count. -/
def skip (f : Flags) (cs : List Char) : List Char := if f.verbose then skipFrom false cs else cs

/-- The digits at the front of a text, with blanks between them in verbose mode. -/
def digits (f : Flags) : Nat → List Char → List Char × List Char
  | 0, cs => ([], cs)
  | _ + 1, [] => ([], [])
  | fuel + 1, c :: cs =>
    if c.isDigit then
      let (ds, rest) := digits f fuel (skip f cs)
      (c :: ds, rest)
    else ([], c :: cs)

/-- The value of decimal digits. -/
def value (ds : List Char) : Nat := ds.foldl (fun n c => 10 * n + (c.toNat - 48)) 0

/-- A number below `2^32` with blanks around it; the first component is empty if there are no
digits. -/
def number? (f : Flags) (cs : List Char) : Option (Option Nat × List Char) :=
  let (ds, rest) := digits f cs.length (cs.dropWhile Text.isBlank)
  let rest := rest.dropWhile Text.isBlank
  if ds = [] then some (none, rest)
  else if value ds < Nat.pow 2 32 then some (some (value ds), rest)
  else none

/-- The bounds of a repetition after the opening brace, and the text after the closing one. -/
def bounds? (f : Flags) (cs : List Char) : Option (Nat × Option Nat × List Char) := do
  let (low, cs) ← number? f (skip f cs)
  match cs with
  | ',' :: rest =>
    match skip f rest with
    | '\x7d' :: rest => do
      let low ← low
      some (low, none, skip f rest)
    | rest => do
      let low ← low
      let (high, rest) ← number? f rest
      let high ← high
      match rest with
      | '\x7d' :: rest => if low ≤ high then some (low, some high, skip f rest) else none
      | _ => none
  | '\x7d' :: rest => do
    let low ← low
    some (low, some low, skip f rest)
  | _ => none

/-! ### Escapes -/

/-- What a single element of a pattern or of a class can be. A literal is marked if it was written
by two hexadecimal digits. -/
inductive Primitive where
  | literal (code : Nat) (byte : Bool)
  | assertion (l : Look)
  | letter (c : Char) (negated : Bool)
  | property (c : CharClass) (negated : Bool)

/-- The value of a hexadecimal digit. -/
def hex? (c : Char) : Option Nat :=
  if c.isDigit then some (c.toNat - 48)
  else if 'a' ≤ c ∧ c ≤ 'f' then some (c.toNat - 87)
  else if 'A' ≤ c ∧ c ≤ 'F' then some (c.toNat - 55)
  else none

/-- The code of a Unicode scalar value. -/
def scalar? (n : Nat) : Option Nat :=
  if n < 0xD800 ∨ (0xDFFF < n ∧ n < 0x110000) then some n else none

/-- A fixed number of hexadecimal digits. -/
def hexDigits? (f : Flags) : Nat → Nat → List Char → Option (Nat × List Char)
  | 0, n, cs => some (n, cs)
  | k + 1, n, c :: cs => do
    let d ← hex? c
    hexDigits? f k (16 * n + d) (skip f cs)
  | _ + 1, _, [] => none

/-- Hexadecimal digits up to a closing brace; there must be one. -/
def hexBrace? (f : Flags) : Nat → Option Nat → List Char → Option (Nat × List Char)
  | 0, _, _ => none
  | _ + 1, _, [] => none
  | fuel + 1, n, c :: cs =>
    if c = '\x7d' then n.map fun n => (n, cs)
    else do
      let d ← hex? c
      hexBrace? f fuel (some (min (16 * n.getD 0 + d) (Nat.pow 2 32))) (skip f cs)

/-- The characters up to a closing brace. -/
def upToBrace? (f : Flags) : Nat → List Char → Option (List Char × List Char)
  | 0, _ => none
  | _ + 1, [] => none
  | fuel + 1, c :: cs =>
    if c = '\x7d' then some ([], cs)
    else do
      let (name, rest) ← upToBrace? f fuel (skip f cs)
      some (c :: name, rest)

/-- Splits a text at the first occurrence of a character. -/
def cutAt? (sep : Char) (cs : List Char) : Option (List Char × List Char) :=
  match cs.dropWhile (· ≠ sep) with
  | [] => none
  | _ :: rest => some (cs.takeWhile (· ≠ sep), rest)

/-- Splits a text at the first `!=`. -/
def cutAtUnequal? : List Char → Option (List Char × List Char)
  | [] => none
  | '!' :: '=' :: rest => some ([], rest)
  | c :: rest => (cutAtUnequal? rest).map fun (a, b) => (c :: a, b)

/-- The class of a property in braces, and whether it is the complement. -/
def braced? (name : List Char) : Option (CharClass × Bool) :=
  match cutAtUnequal? name with
  | some (p, v) => (Named.byValue? p v).map (·, true)
  | none =>
    match cutAt? ':' name with
    | some (p, v) => (Named.byValue? p v).map (·, false)
    | none =>
      match cutAt? '=' name with
      | some (p, v) => (Named.byValue? p v).map (·, false)
      | none => (Named.byName? name).map (·, false)

/-- The class after `\p` or `\P`. -/
def property? (f : Flags) (negated : Bool) (cs : List Char) : Option (Primitive × List Char) :=
  match skip f cs with
  | [] => none
  | '\x7b' :: rest => do
    let (name, rest) ← upToBrace? f (rest.length + 1) (skip f rest)
    let (c, unequal) ← braced? name
    some (.property c (negated != unequal), rest)
  | '\\' :: _ => none
  | c :: rest => do
    let cls ← Named.byName? [c]
    some (.property cls negated, skip f rest)

/-- The characters with a meaning of their own in patterns. -/
def isMeta (c : Char) : Bool := "\\.+*?()|[]\x7b\x7d^$#&-~".toList.contains c

/-- Characters that stand for themselves after a backslash. -/
def isEscapable (c : Char) : Bool :=
  c.toNat < 128 && !c.isAlphanum && c != '<' && c != '>'

/-- The word boundary of the given name. -/
def boundary? (unicode : Bool) (name : String) : Option Look :=
  match name with
  | "start" => some (.wordStart unicode)
  | "end" => some (.wordEnd unicode)
  | "start-half" => some (.wordStartHalf unicode)
  | "end-half" => some (.wordEndHalf unicode)
  | _ => none

/-- The letters of a name of a word boundary, with blanks between them in verbose mode. -/
def boundaryName (f : Flags) : Nat → List Char → List Char × List Char
  | 0, cs => ([], cs)
  | _ + 1, [] => ([], [])
  | fuel + 1, c :: cs =>
    if c.isAlpha ∨ c = '-' then
      let (name, rest) := boundaryName f fuel (skip f cs)
      (c :: name, rest)
    else ([], c :: cs)

/-- What follows `\b`: a name in braces, or nothing that belongs to it. -/
def wordBoundary? (f : Flags) (cs : List Char) : Option (Primitive × List Char) :=
  match cs with
  | '\x7b' :: rest =>
    match skip f rest with
    | [] => none
    | c :: inner =>
      if c.isAlpha ∨ c = '-' then
        let (name, rest) := boundaryName f (inner.length + 1) (c :: inner)
        match rest with
        | '\x7d' :: rest => do
          let l ← boundary? f.unicode (String.ofList name)
          some (.assertion l, rest)
        | _ => none
      else some (.assertion (.wordBoundary f.unicode), cs)
  | _ => some (.assertion (.wordBoundary f.unicode), cs)

/-- A character written by its number after `\x`, `\u` or `\U`. -/
def hexEscape? (f : Flags) (width : Nat) (cs : List Char) : Option (Primitive × List Char) :=
  match skip f cs with
  | [] => none
  | '\x7b' :: rest => do
    let (n, rest) ← hexBrace? f (rest.length + 1) none (skip f rest)
    let n ← scalar? n
    some (.literal n false, rest)
  | cs => do
    let (n, rest) ← hexDigits? f width 0 cs
    let n ← scalar? n
    some (.literal n (width == 2), rest)

/-- The element after a backslash. -/
def escape? (f : Flags) : List Char → Option (Primitive × List Char)
  | [] => none
  | c :: cs =>
    if c.isDigit then none
    else if c = 'x' then hexEscape? f 2 cs
    else if c = 'u' then hexEscape? f 4 cs
    else if c = 'U' then hexEscape? f 8 cs
    else if c = 'p' then property? f false cs
    else if c = 'P' then property? f true cs
    else if c = 'd' ∨ c = 's' ∨ c = 'w' then some (.letter c false, cs)
    else if c = 'D' ∨ c = 'S' ∨ c = 'W' then some (.letter c.toLower true, cs)
    else if isMeta c ∨ isEscapable c then some (.literal c.toNat false, cs)
    else if c = 'a' then some (.literal 7 false, cs)
    else if c = 'f' then some (.literal 12 false, cs)
    else if c = 't' then some (.literal 9 false, cs)
    else if c = 'n' then some (.literal 10 false, cs)
    else if c = 'r' then some (.literal 13 false, cs)
    else if c = 'v' then some (.literal 11 false, cs)
    else if c = 'A' then some (.assertion .startText, cs)
    else if c = 'z' then some (.assertion .endText, cs)
    else if c = 'b' then wordBoundary? f cs
    else if c = 'B' then some (.assertion (.noWordBoundary f.unicode), cs)
    else if c = '<' then some (.assertion (.wordStart f.unicode), cs)
    else if c = '>' then some (.assertion (.wordEnd f.unicode), cs)
    else none

/-! ### Character classes -/

/-- A class with its nesting depth. -/
structure Class where
  set : CharClass
  depth : Nat

/-- The operations on classes. -/
inductive SetOp where
  | inter | diff | symm

/-- The class with the other cases of its members, if case does not count. -/
def fold (f : Flags) (c : CharClass) : CharClass :=
  if f.caseless then (if f.unicode then .caseless c else .caselessAscii c) else c

/-- The result of an operation. -/
def SetOp.apply (f : Flags) (op : SetOp) (a b : Class) : Class :=
  let x := fold f a.set
  let y := fold f b.set
  let set := match op with
    | .inter => .inter x y
    | .diff => .diff x y
    | .symm => .symm x y
  ⟨set, 1 + max a.depth b.depth⟩

/-- The union of the items of a class. -/
def unite : List Class → Class
  | [] => ⟨.empty, 0⟩
  | [c] => c
  | cs =>
    ⟨cs.foldr (fun c s => .union c.set s) .empty, 1 + cs.foldr (fun c d => max c.depth d) 0⟩

/-- The class read so far, with the operation that waits for it. -/
def complete (f : Flags) (left : Option (SetOp × Class)) (items : List Class) : Class :=
  match left with
  | none => unite items
  | some (op, a) => op.apply f a (unite items)

/-- The code of an element that stands for one character inside a class. -/
def literal? (f : Flags) : Primitive → Option Nat
  | .literal n byte => if f.unicode ∨ n < 128 ∨ byte then some n else none
  | _ => none

/-- The class of an element inside a class. -/
def member? (f : Flags) (p : Primitive) : Option CharClass :=
  match p with
  | .literal _ _ => (literal? f p).map .single
  | .letter c negated => some (.negateIf negated (Named.letter c f.unicode))
  | .property c negated => if f.unicode then some (.negateIf negated (fold f c)) else none
  | .assertion _ => none

/-- An element of a class. -/
def element? (f : Flags) : List Char → Option (Primitive × List Char)
  | [] => none
  | '\\' :: cs => escape? f cs
  | c :: cs => some (.literal c.toNat false, cs)

/-- An element or a range of a class. -/
def range? (f : Flags) (cs : List Char) : Option (CharClass × List Char) := do
  let (first, rest) ← element? f cs
  let rest := skip f rest
  let single := do
    let c ← member? f first
    some (c, rest)
  match rest with
  | [] => none
  | '-' :: after =>
    match skip f after with
    | ']' :: _ => single
    | '-' :: _ => single
    | [] => none
    | after => do
      let (last, rest) ← element? f after
      let low ← literal? f first
      let high ← literal? f last
      if low ≤ high then some (.range low high, rest) else none
  | _ => single

/-- An ASCII class after its opening bracket, such as `:alpha:]`. -/
def asciiClass? (f : Flags) : List Char → Option (CharClass × List Char)
  | ':' :: cs =>
    let (negated, cs) := match cs with
      | '^' :: cs => (true, cs)
      | cs => (false, cs)
    match cs.dropWhile (· ≠ ':') with
    | ':' :: ']' :: rest => do
      let ranges ← Named.ascii? (String.ofList (cs.takeWhile (· ≠ ':')))
      some (.negateIf negated (fold f (.ofRanges ranges)), rest)
    | _ => none
  | _ => none

/-- The hyphens at the start of a class. -/
def hyphens (f : Flags) : Nat → List Char → Nat × List Char
  | 0, cs => (0, cs)
  | fuel + 1, '-' :: cs =>
    let (n, rest) := hyphens f fuel (skip f cs)
    (n + 1, rest)
  | _ + 1, cs => (0, cs)

/-- The start of a class after its opening bracket: whether it is a complement, and the hyphens or
the closing bracket that stand for themselves there. -/
def opening? (f : Flags) (cs : List Char) : Option (Bool × List Class × List Char) :=
  let cs := skip f cs
  let (negated, cs) := match cs with
    | '^' :: cs => (true, skip f cs)
    | cs => (false, cs)
  let (n, cs) := hyphens f cs.length cs
  let dashes := List.replicate n (Class.mk (.single '-'.toNat) 0)
  match cs with
  | [] => none
  | ']' :: rest =>
    if n = 0 then
      let rest := skip f rest
      if rest = [] then none else some (negated, [⟨.single ']'.toNat, 0⟩], rest)
    else some (negated, dashes, cs)
  | _ => some (negated, dashes, cs)

/-- The rest of a class up to its closing bracket. -/
def class? (f : Flags) :
    Nat → Bool → Option (SetOp × Class) → List Class → List Char → Option (Class × List Char)
  | 0, _, _, _, _ => none
  | fuel + 1, negated, left, items, cs =>
    match skip f cs with
    | [] => none
    | ']' :: rest =>
      let c := complete f left items
      some (⟨.negateIf negated (fold f c.set), c.depth + 1⟩, rest)
    | '&' :: '&' :: rest =>
      class? f fuel negated (some (.inter, complete f left items)) [] rest
    | '-' :: '-' :: rest =>
      class? f fuel negated (some (.diff, complete f left items)) [] rest
    | '~' :: '~' :: rest =>
      class? f fuel negated (some (.symm, complete f left items)) [] rest
    | '[' :: rest =>
      match asciiClass? f rest with
      | some (c, rest) => class? f fuel negated left (items ++ [⟨c, 0⟩]) rest
      | none => do
        let (innerNegated, innerItems, rest) ← opening? f rest
        let (c, rest) ← class? f fuel innerNegated none innerItems rest
        class? f fuel negated left (items ++ [c]) rest
    | cs => do
      let (c, rest) ← range? f cs
      class? f fuel negated left (items ++ [⟨c, 0⟩]) rest

/-! ### Pieces -/

/-- The number of bytes of a code point in UTF-8. -/
def width (n : Nat) : Nat :=
  if n < 0x80 then 1 else if n < 0x800 then 2 else if n < 0x10000 then 3 else 4

/-- An estimate of the weight of a class. -/
def classWeight : CharClass → Nat
  | .empty => stateWeight
  | .range low high =>
    if low = high then stateWeight * width low else stateWeight * (width low + width high) / 2
  | .named p => if p 0x3400 then 42000 else if p 0x660 then 5500 else 900
  | .union a b => max stateWeight (classWeight a + classWeight b - 24)
  | .inter a b => max (classWeight a) (classWeight b)
  | .diff a b => classWeight a + classWeight b
  | .symm a b => classWeight a + classWeight b
  | .negate a => classWeight a + 400
  | .caseless a => classWeight a + 16
  | .caselessAscii a => classWeight a + 16

/-- The piece that reads a character of a class. -/
def ofClass (c : CharClass) (depth : Nat) : Piece := ⟨.atom (.char c), depth, classWeight c⟩

/-- A class without Unicode must not have a byte beyond ASCII. -/
def restrict? (f : Flags) (c : CharClass) : Option CharClass :=
  if f.unicode then some c
  else if (List.range 128).any fun i => c.mem (128 + i) then none
  else some (.inter c (.range 0 127))

/-- The piece of an element of a pattern. -/
def ofPrimitive? (f : Flags) : Primitive → Option Piece
  | .literal n byte =>
    if ¬ f.unicode ∧ byte ∧ 128 ≤ n then none
    else some (ofClass (if f.unicode ∨ n < 128 then fold f (.single n) else .single n) 0)
  | .assertion l => some ⟨.atom (.look l), 0, stateWeight⟩
  | .letter c negated => do
    let c ← restrict? f (.negateIf negated (Named.letter c f.unicode))
    some (ofClass c 0)
  | .property c negated =>
    if f.unicode then some (ofClass (.negateIf negated (fold f c)) 0) else none

/-- The piece of the point. -/
def dot? (f : Flags) : Option Piece :=
  if ¬ f.unicode then none
  else
    let c : CharClass :=
      if f.dotAll then .named fun _ => true
      else if f.crlf then .named fun n => n ≠ 10 ∧ n ≠ 13
      else .named fun n => n ≠ 10
    some ⟨.atom (.char c), 0, 20 * stateWeight⟩

/-- A sequence of items. -/
def sequence (items : List Item) : Piece :=
  match items with
  | [] => ⟨.empty, 0, stateWeight⟩
  | [i] => i.piece
  | _ =>
    ⟨items.foldr (fun i r => .seq i.piece.regex r) .empty,
      1 + items.foldr (fun i d => max i.piece.depth d) 0,
      items.foldr (fun i w => i.piece.weight + w) 0⟩

/-- The choice between alternatives. -/
def choice (first : Piece) (others : List Piece) : Piece :=
  match others with
  | [] => first
  | _ =>
    ⟨others.foldl (fun r p => .alt r p.regex) first.regex,
      1 + others.foldl (fun d p => max d p.depth) first.depth,
      others.foldl (fun w p => w + p.weight + 4) (first.weight + stateWeight)⟩

/-- The expression reads no character. -/
def isBlind : Regex Atom → Bool
  | .empty => true
  | .atom (.char _) => false
  | .atom (.look _) => true
  | .seq r s => isBlind r && isBlind s
  | .alt r s => isBlind r && isBlind s
  | .times r _ most => most == some 0 || isBlind r

/-- A repetition; one that reads nothing weighs no more than a single round. -/
def repetition (p : Piece) (least : Nat) (most : Option Nat) : Piece :=
  let rounds := if isBlind p.regex then 1 else max least (most.getD (least + 1))
  let options := if isBlind p.regex then 1 else (most.getD (least + 1)) - least
  ⟨.times p.regex least most, p.depth + 1,
    p.weight * rounds + (stateWeight + 8) * options + stateWeight⟩

/-! ### Groups and patterns -/

/-- The characters of the names of groups. -/
def isNameChar (first : Bool) (c : Char) : Bool :=
  c == '_' || Text.isAlphabetic c.toNat ||
    (!first && (c == '.' || c == '[' || c == ']' || Text.isNumeric c.toNat))

/-- The name of a group up to the closing angle. -/
def groupName? (cs : List Char) : Option (String × List Char) :=
  match cs.dropWhile (· ≠ '>') with
  | [] => none
  | _ :: rest =>
    match cs.takeWhile (· ≠ '>') with
    | [] => none
    | c :: name =>
      if isNameChar true c && name.all (isNameChar false) then
        some (String.ofList (c :: name), rest)
      else none

/-- Sets a flag. -/
def Flags.set? (f : Flags) (c : Char) (on : Bool) : Option Flags :=
  if c = 'i' then some { f with caseless := on }
  else if c = 'm' then some { f with multiline := on }
  else if c = 's' then some { f with dotAll := on }
  else if c = 'u' then some { f with unicode := on }
  else if c = 'x' then some { f with verbose := on }
  else if c = 'R' then some { f with crlf := on }
  else if c = 'U' then some f
  else none

/-- The flags up to a colon or a closing parenthesis; each may occur once, and a hyphen turns off
those after it. The result tells whether there was any. -/
def flags? (on : Bool) (seen : List Char) (f : Flags) :
    List Char → Option (Flags × Bool × List Char)
  | [] => none
  | c :: cs =>
    if c = ':' ∨ c = ')' then
      if seen.getLast? = some '-' then none else some (f, seen ≠ [], c :: cs)
    else if c ∈ seen then none
    else if c = '-' then flags? false (seen ++ [c]) f cs
    else do
      let f ← f.set? c on
      flags? on (seen ++ [c]) f cs

/-- How a group begins. -/
inductive Opening where
  | flags (f : Flags)
  | group (f : Flags) (captures : Bool) (name : Option String)

/-- The beginning of a group after the opening parenthesis. -/
def groupOpening? (f : Flags) (cs : List Char) : Option (Opening × List Char) :=
  match skip f cs with
  | '?' :: '=' :: _ => none
  | '?' :: '!' :: _ => none
  | '?' :: '<' :: '=' :: _ => none
  | '?' :: '<' :: '!' :: _ => none
  | '?' :: 'P' :: '<' :: rest => do
    let (name, rest) ← groupName? rest
    some (.group f true (some name), rest)
  | '?' :: '<' :: rest => do
    let (name, rest) ← groupName? rest
    some (.group f true (some name), rest)
  | '?' :: rest => do
    let (g, any, rest) ← flags? true [] f rest
    match rest with
    | ')' :: rest => if any then some (.flags g, rest) else none
    | _ :: rest => some (.group g false none, rest)
    | [] => none
  | cs => some (.group f true none, cs)

/-- What was read up to the end of a group or of the pattern. -/
structure Body where
  piece : Piece
  names : List String
  closed : Bool
  rest : List Char

/-- The alternatives of a group or pattern from some place on, given the items and alternatives
before it (both in reverse order) and the names of the groups so far. -/
def body? :
    Nat → Flags → List String → List Item → List Piece → List Char → Option Body
  | 0, _, _, _, _, _ => none
  | fuel + 1, f, names, items, alts, cs =>
    let finish (closed : Bool) (rest : List Char) : Option Body :=
      match (sequence items.reverse :: alts).reverse with
      | [] => none
      | first :: others => some ⟨choice first others, names, closed, rest⟩
    let single (piece : Piece) (rest : List Char) :=
      body? fuel f names (⟨piece, true⟩ :: items) alts rest
    let repeated (least : Nat) (most : Option Nat) (rest : List Char) : Option Body :=
      match items with
      | ⟨piece, true⟩ :: before =>
        let rest := match rest with
          | '?' :: rest => rest
          | rest => rest
        body? fuel f names (⟨repetition piece least most, true⟩ :: before) alts rest
      | _ => none
    match skip f cs with
    | [] => finish false []
    | ')' :: rest => finish true rest
    | '|' :: rest => body? fuel f names [] (sequence items.reverse :: alts) rest
    | '(' :: rest =>
      match groupOpening? f rest with
      | none => none
      | some (.flags g, rest) => body? fuel g names (⟨⟨.empty, 0, 0⟩, false⟩ :: items) alts rest
      | some (.group g captures name, rest) =>
        match name with
        | some n =>
          if n ∈ names then none
          else
            match body? fuel g (n :: names) [] [] rest with
            | some ⟨p, names, true, rest⟩ =>
              body? fuel f names
                (⟨⟨p.regex, p.depth + 1, p.weight + 2 * stateWeight⟩, true⟩ :: items) alts rest
            | _ => none
        | none =>
          match body? fuel g names [] [] rest with
          | some ⟨p, names, true, rest⟩ =>
            let more := if captures then 2 * stateWeight else 0
            body? fuel f names (⟨⟨p.regex, p.depth + 1, p.weight + more⟩, true⟩ :: items) alts rest
          | _ => none
    | '[' :: rest => do
      let (negated, items, rest) ← opening? f rest
      let (c, rest) ← class? f (rest.length + 1) negated none items rest
      let set ← restrict? f c.set
      single (ofClass set c.depth) rest
    | '?' :: rest => repeated 0 (some 1) rest
    | '*' :: rest => repeated 0 none rest
    | '+' :: rest => repeated 1 none rest
    | '\x7b' :: rest => do
      let (least, most, rest) ← bounds? f rest
      repeated least most rest
    | '\\' :: rest => do
      let (p, rest) ← escape? f rest
      let piece ← ofPrimitive? f p
      single piece rest
    | '.' :: rest => do
      let piece ← dot? f
      single piece rest
    | '^' :: rest =>
      let l := if f.multiline then Look.startLine f.crlf else .startText
      single ⟨.atom (.look l), 0, stateWeight⟩ rest
    | '$' :: rest =>
      let l := if f.multiline then Look.endLine f.crlf else .endText
      single ⟨.atom (.look l), 0, stateWeight⟩ rest
    | c :: rest => do
      let piece ← ofPrimitive? f (.literal c.toNat false)
      single piece rest

/-- The piece that a pattern writes. -/
def parse (pattern : String) : Except SyntaxFault Piece :=
  match body? (pattern.toList.length + 1) {} [] [] [] pattern.toList with
  | some ⟨piece, _, false, _⟩ => .ok piece
  | some ⟨_, _, true, _⟩ => .error .unopened
  | none => .error .other

/-- The greatest nesting depth of a pattern. -/
def maxDepth : Nat := 250

/-- The greatest weight of a pattern. -/
def maxWeight : Nat := 10 * Nat.pow 2 20

/-- The bound that a piece exceeds. -/
def excess? (p : Piece) : Option Fault :=
  if maxDepth < p.depth then some .malformed
  else if maxWeight < p.weight then some .tooLarge
  else none

end Reader

/-- The library whose expressions are read by this reader. -/
instance : Library where
  Expression := Reader.Piece
  parse := Reader.parse
  excess? := Reader.excess?
  occursIn p text := p.regex.occursIn text.toList
  Matches p text i j := i ≤ text.toList.length ∧ p.regex.Matches text.toList.toArray i j

end CatalogRules.Pattern

import CatalogRules.Json.Document

/-! # Records and maps in documents

A record is written as an object, in which the known fields occur at most once and others are passed
over, or as an array of its fields in order of declaration. A map is written as an object; of two
entries with one key the later counts. Arrays and objects that are looked into count as levels of
nesting, those that are passed over do not. -/

namespace CatalogRules.Json.Document

/-- Something that can be read from a document, given the number of levels that are left. -/
abbrev Reader (α : Type) := Nat → Document → Option α

/-- The contents of a known field of an object; `some none` if it is missing. -/
def single? (name : String) : List (Option String × Document) → Option (Option Document)
  | [] => some none
  | (k, d) :: rest => do
    let found ← single? name rest
    if k = some name then (if found.isSome then none else some (some d)) else some found

/-- The contents of the known fields of a record, in order. -/
def slots? (names : List String) : Reader (List (Option Document))
  | 0, _ => none
  | _ + 1, .object fields =>
    if fields.all fun p => p.1.isSome then names.mapM fun n => single? n fields else none
  | _ + 1, .array items =>
    if items.length ≤ names.length then
      some (items.map some ++ List.replicate (names.length - items.length) none)
    else none
  | _ + 1, _ => none

/-- A record with the given names of fields, whose contents are read by `build` with one level
less. -/
def record? {α : Type} (names : List String) (build : Nat → List (Option Document) → Option α) :
    Reader α := fun levels d => do
  let slots ← slots? names levels d
  build (levels - 1) slots

/-- A field that has to be there. -/
def required? {α : Type} (read : Reader α) (levels : Nat) : Option Document → Option α
  | some d => read levels d
  | none => none

/-- A field that may be missing. -/
def defaulted? {α : Type} (read : Reader α) (default : α) (levels : Nat) :
    Option Document → Option α
  | some d => read levels d
  | none => some default

/-- A field that may be missing or `null`. -/
def optional? {α : Type} (read : Reader α) (levels : Nat) : Option Document → Option (Option α)
  | none => some none
  | some .null => some none
  | some d => (read levels d).map some

/-- A string. -/
def text? : Reader String
  | _, .string s => s
  | _, _ => none

/-- An integer of 64 bits with sign. -/
def signed? : Reader Int
  | _, .number (some n) => n.toSigned?
  | _, _ => none

/-- An array of things of one kind. -/
def list? {α : Type} (read : Reader α) : Reader (List α)
  | 0, _ => none
  | levels + 1, .array items => items.mapM (read levels)
  | _ + 1, _ => none

/-- A map, as the list of its entries in the order of the document. -/
def entries? {α : Type} (read : Reader α) : Reader (List (String × α))
  | 0, _ => none
  | levels + 1, .object fields => fields.mapM fun (k, d) => do
    let k ← k
    let v ← read levels d
    some (k, v)
  | _ + 1, _ => none

/-- A choice between names, written as a string or as an object with the name as its one key and
`null` as the value. -/
def name? : Reader String
  | _, .string s => s
  | levels, .object [(some k, .null)] => if levels = 0 then none else some k
  | _, _ => none

/-- Reads a whole text. -/
def readText? {α : Type} (read : Reader α) (text : String) : Option α := do
  (read maxLevels) (← Document.read? text)

end CatalogRules.Json.Document

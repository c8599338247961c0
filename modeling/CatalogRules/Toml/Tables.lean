import CatalogRules.Keyed
import CatalogRules.Toml.Value

/-! # Tables under construction

While a document is read, each table remembers how it came about: by a header, by the header of a
table below it, or by a key with points. A table may be opened by a header once, a key may be given
a value once, and keys with points only extend tables that came about by such keys. -/

namespace CatalogRules.Toml

/-- How a table came about. -/
inductive Origin where
  | header | implied | dotted
  deriving DecidableEq, Repr

/-- What stands under a key: a value, a table, or the tables of a list of which the last one is
open. -/
inductive Node where
  | value (v : Value)
  | table (origin : Origin) (fields : List (String × Node))
  | tables (closed : List (List (String × Node))) (last : List (String × Node))

/-- The contents of a table under construction. -/
abbrev Fields := List (String × Node)

namespace Node

mutual

/-- The finished value. -/
def toValue : Node → Value
  | .value v => v
  | .table _ fs => .table (toFields fs)
  | .tables closed last => .array (toTables closed ++ [.table (toFields last)])

/-- The finished fields. -/
def toFields : List (String × Node) → List (String × Value)
  | [] => []
  | (k, n) :: rest => (k, toValue n) :: toFields rest

/-- The finished tables. -/
def toTables : List (List (String × Node)) → List Value
  | [] => []
  | fs :: rest => .table (toFields fs) :: toTables rest

end

end Node

namespace Fields

/-- Changes the table at the end of a path; tables that are missing come about. `viaKey` says that
the path belongs to a key and not to a header. -/
def edit (viaKey : Bool) (f : Origin → Fields → Option Fields) :
    List String → Origin → Fields → Option Fields
  | [], origin, fs => f origin fs
  | k :: ks, _, fs =>
    match fs.lookup k with
    | none => do
      let origin := if viaKey then Origin.dotted else .implied
      some (Keyed.put k (.table origin (← edit viaKey f ks origin [])) fs)
    | some (.value _) => none
    | some (.table origin sub) =>
      if viaKey ∧ origin = .header then none
      else do some (Keyed.put k (.table origin (← edit viaKey f ks origin sub)) fs)
    | some (.tables closed last) => do
      some (Keyed.put k (.tables closed (← edit viaKey f ks .header last)) fs)

/-- Opens a table. -/
def openTable (k : String) (_ : Origin) (fs : Fields) : Option Fields :=
  match fs.lookup k with
  | none => some (Keyed.put k (.table .header []) fs)
  | some (.table .implied sub) => some (Keyed.put k (.table .header sub) fs)
  | some _ => none

/-- Opens the next table of a list. -/
def openNext (k : String) (_ : Origin) (fs : Fields) : Option Fields :=
  match fs.lookup k with
  | none => some (Keyed.put k (.tables [] []) fs)
  | some (.tables closed last) => some (Keyed.put k (.tables (closed ++ [last]) []) fs)
  | some _ => none

/-- Gives a key its value in the table that the parts of the key before have led to. -/
def assign (isDotted : Bool) (k : String) (v : Value) (origin : Origin) (fs : Fields) :
    Option Fields :=
  if isDotted ≠ (origin = .dotted : Bool) then none
  else if (fs.lookup k).isSome then none
  else some (Keyed.put k (.value v) fs)

/-- Splits a key into the parts before the last one and the last one. -/
def splitLast? (key : List String) : Option (List String × String) :=
  key.getLast?.map fun k => (key.dropLast, k)

/-- Gives a key its value. -/
def put? (key : List String) (v : Value) (origin : Origin) (fs : Fields) : Option Fields := do
  let (before, k) ← splitLast? key
  edit true (assign (before ≠ []) k v) before origin fs

end Fields
end CatalogRules.Toml

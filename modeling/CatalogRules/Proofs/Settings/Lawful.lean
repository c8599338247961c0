import CatalogRules.Proofs.Toml.Paths
import CatalogRules.Settings.Library
import Mathlib.Tactic.SplitIfs

/-! # Laws of settings

What is documented of a library of settings, as far as the program relies on it (`LawfulLibrary`):
which files it reads, where it sets a value under a key, that a table is laid over another one field
by field, and that no table is taken for a text, a truth value or a number. A key is a name, or it
leads into what is under a name by a point or a bracket (`LeadsInto`). -/

namespace CatalogRules.Settings

open Toml (Value)
open Library (fields? file? ofVariable? lay set text? truth? natural? short?)

/-! ### Keys -/

/-- The key is a name: it has no parts. -/
def IsName (key : String) : Prop :=
  key ≠ "" ∧ key.toList.all (fun c => c.isAlphanum || c == '_') = true

instance (key : String) : Decidable (IsName key) := by unfold IsName; infer_instance

/-- The key is the name, or it goes on from the name to a field or to an item. -/
def LeadsInto (name key : String) : Prop :=
  key = name ∨ name.toList ++ ['.'] <+: key.toList ∨ name.toList ++ ['['] <+: key.toList

instance (name key : String) : Decidable (LeadsInto name key) := by
  unfold LeadsInto; infer_instance

/-! ### Laws -/

/-- **What is documented of a library of settings.** -/
class LawfulLibrary [Library] : Prop where
  /-- A text writes a map of maps. -/
  distinct : ∀ {text : String} {fs : List (String × Value)}, fields? text = some fs →
    (Value.table fs).Distinct
  /-- A file is read as TOML if its path ends so. -/
  present : ∀ {files : List (String × String)} {name text : String},
    ¬ Nameless (name ++ ".toml") → files.lookup (name ++ ".toml") = some text →
      file? files (name ++ ".toml") = fields? text
  /-- A file without an extension is not read. -/
  nameless : ∀ {files : List (String × String)} {path text : String}, Nameless path →
    files.lookup path = some text → file? files path = some []
  /-- A file may be missing. In its place the library would read one whose path goes on from it. -/
  absent : ∀ {files : List (String × String)} {path : String},
    (∀ f ∈ files, ¬ path.toList <+: f.1.toList) → file? files path = some []
  /-- The value of a variable is the one that its text writes. -/
  value : ∀ {name text key : String} {v : Value}, ofVariable? name text = some (key, v) →
    v = variableValue text
  /-- A value that is no table replaces what is there. -/
  lay_plain : ∀ {old : Option Value} {v : Value}, ¬ v.IsTable → lay old v = v
  /-- A table is laid over another one, or over nothing, field by field, and so is a table with
  fields over anything. -/
  lay_table : ∀ (old : Option Value) {fs : List (String × Value)}, (fs.map (·.1)).Nodup →
    fs ≠ [] ∨ (∀ w ∈ old, w.IsTable) → ∃ gs, lay old (.table fs) = .table gs ∧
      ∀ k, gs.lookup k =
        match fs.lookup k with
        | some v => some (lay (old.bind fun w => w.fields.lookup k) v)
        | none => old.bind fun w => w.fields.lookup k
  /-- A table without fields sets nothing. -/
  lay_empty : ∀ {w : Value}, ¬ w.IsTable → lay (some w) (.table []) = w
  /-- Settings are a table. -/
  set_isTable : ∀ (t : Value) (key : String) (v : Value), (set t key v).IsTable
  /-- A value is laid over what is under its name. -/
  set_name : ∀ {name : String}, IsName name → ∀ (t v : Value),
    (set t name v).fields.lookup name = some (lay (t.fields.lookup name) v)
  /-- What is under a name stays as it is unless the key leads into it. -/
  set_other : ∀ {name key : String}, IsName name → ¬ LeadsInto name key → ∀ (t v : Value),
    (set t key v).fields.lookup name = t.fields.lookup name
  /-- A point in a key leads to a field. -/
  set_point : ∀ {first second : String}, IsName first → IsName second → ∀ (t v : Value),
    set t (first ++ "." ++ second) v = set t first (.table [(second, v)])
  /-- A text is converted to itself. -/
  text : ∀ s : String, text? (.string s) = some s
  /-- A table is not converted to a text, -/
  text_table : ∀ fs : List (String × Value), text? (.table fs) = none
  /-- nor to a truth value, -/
  truth_table : ∀ fs : List (String × Value), truth? (.table fs) = none
  /-- nor to a number of 64 bits, -/
  natural_table : ∀ fs : List (String × Value), natural? (.table fs) = none
  /-- nor to one of 16 bits. -/
  short_table : ∀ fs : List (String × Value), short? (.table fs) = none

end CatalogRules.Settings

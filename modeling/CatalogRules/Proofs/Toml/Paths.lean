import CatalogRules.Proofs.Collections
import CatalogRules.Toml.Value

/-! # Values along paths

A value is seen along a path through its tables. What is said of this takes that no table has two
fields of one name (`Value.Distinct`; tables in arrays are left out, since no setting is read from
them), and that there are tables on the way along the path, as far as it goes
(`Value.LeadsTo`). -/

namespace CatalogRules.Toml.Value

/-- The value is a table. -/
def IsTable (v : Value) : Prop := ∃ fs, v = .table fs

instance (v : Value) : Decidable v.IsTable :=
  match v with
  | .table fs => .isTrue ⟨fs, rfl⟩
  | .string _ | .integer _ | .float _ | .boolean _ | .array _ => .isFalse (by rintro ⟨_, ⟨⟩⟩)

/-- No table in the value, those in arrays apart, has two fields of one name. -/
inductive Distinct : Value → Prop
  | plain {v : Value} (h : ¬ v.IsTable) : v.Distinct
  | table {fs : List (String × Value)} (hkeys : (fs.map (·.1)).Nodup)
      (hvalues : ∀ e ∈ fs, e.2.Distinct) : (Value.table fs).Distinct

theorem Distinct.keys {fs : List (String × Value)} (h : (Value.table fs).Distinct) :
    (fs.map (·.1)).Nodup := by
  cases h with
  | plain h => exact absurd ⟨fs, rfl⟩ h
  | table hkeys _ => exact hkeys

theorem Distinct.lookup {fs : List (String × Value)} (h : (Value.table fs).Distinct)
    {k : String} {v : Value} (hv : fs.lookup k = some v) : v.Distinct := by
  cases h with
  | plain h => exact absurd ⟨fs, rfl⟩ h
  | table _ hvalues => exact hvalues _ (mem_of_lookup hv)

theorem distinct_empty : (Value.table []).Distinct := .table List.nodup_nil (by simp)

/-- What the value has on the way along the path, as far as it goes, are tables. -/
def LeadsTo : List String → Value → Prop
  | [], _ => True
  | k :: ks, v => v.IsTable ∧ ∀ w, v.fields.lookup k = some w → LeadsTo ks w

theorem get?_cons (k : String) (ks : List String) (v : Value) :
    v.get? (k :: ks) = (v.fields.lookup k).bind (get? ks) := rfl

end CatalogRules.Toml.Value

import CatalogRules.Json.Document
import CatalogRules.Proofs.Collections

/-! # Distinct keys

An object is a map, so its keys are distinct, and so are those of the objects inside of it
(`Value.Distinct`). Every value that a text writes is of this kind (`distinct_of_ofText?`): of
fields with one key only the last counts. -/

namespace CatalogRules.Json

mutual

/-- The keys of each object in a value are distinct. -/
def Value.Distinct : Value → Prop
  | .array items => DistinctItems items
  | .object fields => (fields.map (·.1)).Nodup ∧ DistinctFields fields
  | _ => True

/-- The keys of each object in the items are distinct. -/
def DistinctItems : List Value → Prop
  | [] => True
  | v :: vs => v.Distinct ∧ DistinctItems vs

/-- The keys of each object in the values of the fields are distinct. -/
def DistinctFields : List (String × Value) → Prop
  | [] => True
  | (_, v) :: fs => v.Distinct ∧ DistinctFields fs

end

theorem distinctFields_iff {fs : List (String × Value)} :
    DistinctFields fs ↔ ∀ f ∈ fs, f.2.Distinct := by
  induction fs with
  | nil => simp [DistinctFields]
  | cons f fs ih =>
    obtain ⟨k, v⟩ := f
    simp [DistinctFields, ih]

/-- The fields that are kept of some fields are distinct. -/
theorem distinct_ofPairs {fs : List (String × Value)} (h : DistinctFields fs) :
    (Value.object (Keyed.ofPairs fs)).Distinct := by
  refine ⟨Keyed.nodup_ofPairs fs, distinctFields_iff.mpr fun f hf => ?_⟩
  exact distinctFields_iff.mp h f (Keyed.mem_ofPairs hf)

mutual

theorem distinct_toValue? : ∀ {n : Nat} {d : Document} {v : Value},
    d.toValue? n = some v → v.Distinct
  | _, .null, _, h | _, .bool _, _, h => by
    cases h
    trivial
  | _, .number _, _, h | _, .string _, _, h => by
    obtain ⟨_, -, rfl⟩ := Option.map_eq_some_iff.mp h
    trivial
  | n, .array items, v, h => by
    rw [Document.toValue?] at h
    split_ifs at h
    obtain ⟨vs, hvs, rfl⟩ := Option.map_eq_some_iff.mp h
    exact distinct_toValues? hvs
  | n, .object fields, v, h => by
    rw [Document.toValue?] at h
    split_ifs at h
    obtain ⟨fs, hfs, rfl⟩ := Option.map_eq_some_iff.mp h
    exact distinct_ofPairs (distinct_toFields? hfs)

theorem distinct_toValues? : ∀ {n : Nat} {ds : List Document} {vs : List Value},
    Document.toValues? n ds = some vs → DistinctItems vs
  | _, [], _, h => by
    cases h
    trivial
  | n, d :: ds, vs, h => by
    simp only [Document.toValues?, Option.bind_eq_bind, Option.bind_eq_some_iff] at h
    obtain ⟨w, hw, ws, hws, h⟩ := h
    cases h
    exact ⟨distinct_toValue? hw, distinct_toValues? hws⟩

theorem distinct_toFields? : ∀ {n : Nat} {ds : List (Option String × Document)}
    {fs : List (String × Value)}, Document.toFields? n ds = some fs → DistinctFields fs
  | _, [], _, h => by
    cases h
    trivial
  | n, (k, d) :: ds, fs, h => by
    simp only [Document.toFields?, Option.bind_eq_bind, Option.bind_eq_some_iff] at h
    obtain ⟨k, -, w, hw, ws, hws, h⟩ := h
    cases h
    exact ⟨distinct_toValue? hw, distinct_toFields? hws⟩

end

/-- **The keys of each object in a value that a text writes are distinct.** -/
theorem distinct_of_ofText? {text : String} {v : Value} (h : Value.ofText? text = some v) :
    v.Distinct := by
  obtain ⟨d, -, hd⟩ := Option.bind_eq_some_iff.mp h
  exact distinct_toValue? hd

end CatalogRules.Json

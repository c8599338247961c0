import CatalogRules.Proofs.Definition.RoundTrip

/-! # Fields under newer names

Some fields have an older and a newer name. The reader takes the fields under their newer names, and
an older field next to the newer one is dropped (`normalize_eq_renamed`, `readRule_renamed`). -/

namespace CatalogRules.Definition

open Json (Value)

/-- The fields under their newer names; an older field next to the newer one is dropped. -/
def renamed {β : Type} (fields : List (String × β)) : List (String × β) :=
  fields.filterMap fun (k, v) =>
    match newerName? k with
    | none => some (k, v)
    | some newer => if newer ∈ fields.map (·.1) then none else some (newer, v)

/-! ### Names -/

theorem newerName?_newer {k newer : String} (h : newerName? k = some newer) :
    newerName? newer = none := by
  unfold newerName? at h
  split_ifs at h <;> cases h <;> rfl

theorem newerName?_injective {j k newer : String} (hj : newerName? j = some newer)
    (hk : newerName? k = some newer) : j = k := by
  unfold newerName? at hj hk
  split_ifs at hj hk
  all_goals first
    | exact absurd (hj.trans hk.symm) (by decide)
    | simp only [*]

section Renamed
variable {β γ : Type} {fields : List (String × β)}

theorem newerName?_of_mem_renamed {e : String × β} (h : e ∈ renamed fields) :
    newerName? e.1 = none := by
  obtain ⟨⟨k, v⟩, -, he⟩ := List.mem_filterMap.mp h
  dsimp only at he
  split at he
  · next hnone =>
    cases he
    exact hnone
  · next hsome =>
    split_ifs at he
    cases he
    exact newerName?_newer hsome

theorem mem_of_mem_renamed {e : String × β} (h : e ∈ renamed fields) : ∃ k, (k, e.2) ∈ fields := by
  obtain ⟨⟨k, v⟩, hmem, he⟩ := List.mem_filterMap.mp h
  refine ⟨k, ?_⟩
  dsimp only at he
  split at he
  · cases he
    exact hmem
  · split_ifs at he
    cases he
    exact hmem

theorem nodup_renamed (hk : (fields.map (·.1)).Nodup) : ((renamed fields).map (·.1)).Nodup := by
  unfold renamed
  rw [List.Nodup, List.pairwise_map, List.pairwise_filterMap]
  rw [List.Nodup, List.pairwise_map] at hk
  refine hk.imp_of_mem fun {a b} ha hb hne x hx y hy hxy => hne ?_
  obtain ⟨j, v⟩ := a
  obtain ⟨k, w⟩ := b
  have hkeys : ∀ {e : String × β}, e ∈ fields → e.1 ∈ fields.map (·.1) := List.mem_map_of_mem
  dsimp only at hx hy ⊢
  split at hx <;> split at hy
  · cases hx
    cases hy
    exact hxy
  · split_ifs at hy with hnone
    cases hx
    cases hy
    have hmem := hkeys ha
    rw [show j = _ from hxy] at hmem
    exact absurd hmem hnone
  · split_ifs at hx with hnone
    cases hx
    cases hy
    have hmem := hkeys hb
    rw [← show _ = k from hxy] at hmem
    exact absurd hmem hnone
  · next _ m hj _ n hl =>
    split_ifs at hx hy
    cases hx
    cases hy
    have hmn : m = n := hxy
    exact newerName?_injective hj (hmn ▸ hl)

/-- The reader takes the fields under their newer names. -/
theorem normalize_eq_renamed (hk : (fields.map (·.1)).Nodup) :
    normalize fields = renamed fields := by
  rw [← Keyed.ofPairs_self (nodup_renamed hk)]
  refine congrArg Keyed.ofPairs (List.filterMap_congr fun e _ => ?_)
  obtain ⟨k, v⟩ := e
  dsimp only
  cases newerName? k with
  | none => rfl
  | some newer =>
    have hiff : (fields.lookup newer).isSome = true ↔ newer ∈ fields.map (·.1) := by
      rw [Option.isSome_iff_ne_none, ne_eq, lookup_eq_none, not_not]
    simp only [hiff]

/-- Values may be changed before or after, if an older name means the same as the newer one. -/
theorem renamed_map (f : String → β → γ)
    (hf : ∀ k newer, newerName? k = some newer → f newer = f k) (fields : List (String × β)) :
    renamed (fields.map fun p => (p.1, f p.1 p.2)) =
      (renamed fields).map fun p => (p.1, f p.1 p.2) := by
  unfold renamed
  rw [List.filterMap_map, List.map_filterMap]
  refine List.filterMap_congr fun e _ => ?_
  obtain ⟨k, v⟩ := e
  have hkeys : (fields.map fun p => (p.1, f p.1 p.2)).map (·.1) = fields.map (·.1) := by
    rw [List.map_map]
    rfl
  simp only [Function.comp_apply, hkeys]
  cases hnew : newerName? k with
  | none => rfl
  | some newer =>
    dsimp only
    split_ifs
    · rfl
    · rw [Option.map_some, hf k newer hnew]

/-- A key that is neither an older name nor the newer name for one stays where it is. -/
theorem mem_renamed_iff {key : String} {v : β} (hold : newerName? key = none)
    (hnew : ∀ k, newerName? k ≠ some key) : (key, v) ∈ renamed fields ↔ (key, v) ∈ fields := by
  unfold renamed
  rw [List.mem_filterMap]
  constructor
  · rintro ⟨⟨k, w⟩, hmem, he⟩
    dsimp only at he
    split at he
    · cases he
      exact hmem
    · next newer hk =>
      split_ifs at he
      cases he
      exact absurd hk (hnew k)
  · intro hmem
    refine ⟨_, hmem, ?_⟩
    dsimp only
    rw [hold]

theorem lookup_renamed (hk : (fields.map (·.1)).Nodup) {key : String} (hold : newerName? key = none)
    (hnew : ∀ k, newerName? k ≠ some key) : (renamed fields).lookup key = fields.lookup key := by
  refine Option.ext fun v => ?_
  constructor
  · exact fun h => lookup_of_mem hk ((mem_renamed_iff hold hnew).mp (mem_of_lookup h))
  · exact fun h =>
      lookup_of_mem (nodup_renamed hk) ((mem_renamed_iff hold hnew).mpr (mem_of_lookup h))

/-- The newer names are those of a property, of an operator and of conditions. -/
theorem newerName?_ne {key : String} (h : key ∉ ["operator", "property", "conditions"])
    (k : String) : newerName? k ≠ some key := by
  unfold newerName?
  split_ifs <;> simp_all [eq_comm]

end Renamed

/-! ### Distinct newer names -/

/-- The keys are distinct and no older names. -/
structure Newer {β : Type} (fields : List (String × β)) : Prop where
  names : ∀ f ∈ fields, newerName? f.1 = none
  nodup : (fields.map (·.1)).Nodup

theorem newer_renamed {β : Type} {fields : List (String × β)} (h : (fields.map (·.1)).Nodup) :
    Newer (renamed fields) :=
  ⟨fun _ => newerName?_of_mem_renamed, nodup_renamed h⟩

theorem Newer.map {β γ : Type} {fields : List (String × β)} (h : Newer fields)
    (f : String → β → γ) : Newer (fields.map fun p => (p.1, f p.1 p.2)) := by
  refine ⟨fun e he => ?_, ?_⟩
  · obtain ⟨p, hp, rfl⟩ := List.mem_map.mp he
    exact h.names p hp
  · rw [List.map_map]
    exact h.nodup

variable {path : String} {fields : List (String × Value)}

theorem Newer.filter (h : Newer fields) (q : String × Value → Bool) : Newer (fields.filter q) :=
  ⟨fun f hf => h.names f (List.mem_of_mem_filter hf), h.nodup.sublist (List.filter_sublist.map _)⟩

/-- An object is read under its newer names. -/
theorem readRule_renamed (h : (fields.map (·.1)).Nodup) (path : String) :
    readRule (.object fields) path = readRule (.object (renamed fields)) path := by
  have hfields : renamed (readFields fields) = readFields (renamed fields) := by
    rw [readFields_eq_map, readFields_eq_map]
    exact renamed_map (fun _ v => (⟨v, readRule v, readRules v⟩ : Field)) (fun _ _ _ => rfl) fields
  have hkeys : ∀ fields : List (String × Value),
      (readFields fields).map (·.1) = fields.map (·.1) := by
    intro fields
    rw [readFields_eq_map, List.map_map]
    rfl
  have hnew := newer_renamed (h : (fields.map (·.1)).Nodup)
  rw [readRule, readRule, normalize_eq_renamed (by rw [hkeys]; exact h), hfields]
  refine congrArg _ (normalize_self ?_ (by rw [hkeys]; exact hnew.nodup)).symm
  intro f hf
  rw [readFields_eq_map] at hf
  obtain ⟨p, hp, rfl⟩ := List.mem_map.mp hf
  exact hnew.names p hp

/-- An object without a mark that counts. -/
theorem readRule_unmarked (h : Newer fields) (hmark : negateMark path fields = .ok false) :
    readRule (.object fields) path = unmarked path (readFields fields) := by
  rw [readRule_object h.names h.nodup, hmark]
  exact bind_pure (unmarked path (readFields fields))

end CatalogRules.Definition

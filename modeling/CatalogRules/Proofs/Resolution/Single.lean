import CatalogRules.Resolution.Plan
import CatalogRules.Store.Basic
import Mathlib.Data.List.Basic
import Mathlib.Tactic.SplitIfs

/-! # The values of one path on one entity

`Resolution.valuesOf` says what the values of a path on an entity are, without regard to other
entities and other paths. A path that names the entity or its type is answered from the name alone.
A path into a declared aspect is followed in that aspect; it is cut at `Path.cutAt?`, after the
fewest fields (but not none and not all) that are declared as a reference, and its rest is followed
on the entities that are referred to, in order and if they are in the store. Any other path may
stand for a time that is derived from the declared aspects.

The plan of a path makes the same distinctions (`valuesOf_local`, `valuesOf_hop`, `valuesOf_time`).
Paths on an entity that is not in the store have no values, unless they name the entity or its type
(`valuesOf_absent`). -/

namespace CatalogRules

/-- The number of fields before the cut of a path. -/
def Path.cutAt? (spec : AspectSpec) (fields : List String) : Option Nat :=
  (List.range fields.length).find? fun n =>
    0 < n && (spec.references.lookup (Path.text (fields.take n))).isSome

namespace Resolution

/-- The texts at some fields of an aspect of an entity. -/
def textsAt (s : Store) (u : Urn) (aspect : String) (fields : List String) : List String :=
  match s.aspect? u aspect with
  | some e => Path.values e.value fields
  | none => []

/-- The time that a path stands for on an entity of a registered type. -/
def timeOf (r : Registry) (s : Store) (u : Urn) (p : Path) : List String :=
  match SystemField.ofPath? p, s.entity? u with
  | some f, some aspects =>
    if r.has u.entityType then
      ((f.derive (aspects.filter fun a => (r.aspectNames u.entityType).contains a.1)).map
        toString).toList
    else []
  | _, _ => []

/-- **The values of a path on an entity.** -/
def valuesOf (r : Registry) (s : Store) (u : Urn) (p : Path) : List String :=
  match IdentityField.ofPath? p with
  | some f => [f.value u]
  | none =>
    match p with
    | [] => timeOf r s u []
    | a :: fields =>
      match r.aspect? u.entityType a with
      | none => timeOf r s u (a :: fields)
      | some spec =>
        match Path.cutAt? spec fields with
        | none => textsAt s u a fields
        | some n =>
          ((textsAt s u a (fields.take n)).filterMap Urn.ofText?).flatMap fun t =>
            if (s.entity? t).isSome then valuesOf r s t (fields.drop n) else []
termination_by p.length
decreasing_by
  simp only [List.length_drop, List.length_cons]
  omega

end Resolution

/-! ### The cut of a plan -/

namespace Plan

/-- A field path that is declared as a reference by the aspect. -/
def Declared (spec : AspectSpec) (part : List String) : Prop :=
  (spec.references.lookup (Path.text part)).isSome

theorem cut?_none {spec : AspectSpec} : ∀ {taken fields : List String},
    cut? spec taken fields = none ↔
      ∀ n, 0 < n → n < fields.length → ¬ Declared spec (taken ++ fields.take n)
  | taken, [] => by simp [cut?]
  | taken, [f] => by
    simp only [cut?, List.length_singleton, true_iff]
    intro n h0 h1
    omega
  | taken, f :: g :: rest => by
    rw [cut?]
    cases hf : spec.references.lookup (Path.text (taken ++ [f])) with
    | some targets =>
      simp only [reduceCtorEq, false_iff]
      intro h
      exact h 1 (by omega) (by simp) (by simp [Declared, hf])
    | none =>
      simp only [@cut?_none spec (taken ++ [f]) (g :: rest)]
      constructor
      · intro h n h0 h1
        rcases n with _ | _ | n
        · omega
        · simp [Declared, hf]
        · have := h (n + 1) (by omega) (by simpa using h1)
          simpa using this
      · intro h n h0 h1
        have := h (n + 1) (by omega) (by simpa using h1)
        simpa using this

theorem cut?_some {spec : AspectSpec} {part rest : List String} {targets : List String} :
    ∀ {taken fields : List String}, cut? spec taken fields = some (part, targets, rest) →
      ∃ n, 0 < n ∧ n < fields.length ∧ part = taken ++ fields.take n ∧ rest = fields.drop n ∧
        Declared spec part ∧ ∀ m, 0 < m → m < n → ¬ Declared spec (taken ++ fields.take m)
  | taken, [], h => by simp [cut?] at h
  | taken, [f], h => by simp [cut?] at h
  | taken, f :: g :: more, h => by
    rw [cut?] at h
    cases hf : spec.references.lookup (Path.text (taken ++ [f])) with
    | some ts =>
      simp only [hf, Option.some.injEq, Prod.mk.injEq] at h
      obtain ⟨rfl, rfl, rfl⟩ := h
      refine ⟨1, by omega, by simp, by simp, by simp, by simp [Declared, hf], ?_⟩
      intro m h0 h1
      omega
    | none =>
      simp only [hf] at h
      obtain ⟨n, h0, h1, hp, hr, hd, hm⟩ := cut?_some h
      refine ⟨n + 1, by omega, by simpa using h1, by simpa using hp, by simpa using hr, hd, ?_⟩
      intro m hm0 hm1
      rcases m with _ | _ | m
      · omega
      · simp [Declared, hf]
      · have := hm (m + 1) (by omega) (by omega)
        simpa using this

/-- The cut of a plan lies where `Path.cutAt?` says. -/
theorem cut?_eq_none_iff {spec : AspectSpec} {fields : List String} :
    cut? spec [] fields = none ↔ Path.cutAt? spec fields = none := by
  rw [cut?_none, Path.cutAt?, List.find?_eq_none]
  simp only [List.mem_range, Bool.and_eq_true, decide_eq_true_eq, not_and, Declared,
    List.nil_append]
  exact ⟨fun h n h1 h0 => h n h0 h1, fun h n h0 h1 => h n h1 h0⟩

theorem cutAt?_of_cut? {spec : AspectSpec} {fields part rest targets : List String}
    (h : cut? spec [] fields = some (part, targets, rest)) :
    ∃ n, Path.cutAt? spec fields = some n ∧ 0 < n ∧ n < fields.length ∧ part = fields.take n ∧
      rest = fields.drop n := by
  obtain ⟨n, h0, h1, hp, hr, hd, hm⟩ := cut?_some h
  refine ⟨n, ?_, h0, h1, by simpa using hp, hr⟩
  rw [Path.cutAt?, List.find?_range_eq_some]
  refine ⟨?_, List.mem_range.mpr h1, fun m hm1 => ?_⟩
  · rw [hp] at hd
    simpa [h0, Declared] using hd
  · rcases Nat.eq_zero_or_pos m with rfl | hm0
    · simp
    · have hmd := hm m hm0 hm1
      rw [Declared, List.nil_append] at hmd
      simp only [hm0, decide_true, Bool.true_and, hmd, Bool.not_false]

/-- The rest of a path after a hop is shorter, by the aspect and one field at least. -/
theorem length_rest {r : Registry} {t a : String} {p rest : Path} {fs ts : List String}
    (h : of? r t p = some (.hop a fs ts rest)) : 0 < rest.length ∧ rest.length + 2 ≤ p.length := by
  cases p with
  | nil => simp [of?] at h
  | cons a' fields =>
    simp only [of?, Option.bind_eq_bind, Option.bind_eq_some_iff] at h
    obtain ⟨spec, -, h⟩ := h
    split at h
    · next part targets rest' hc =>
      simp only [Option.some.injEq, hop.injEq] at h
      obtain ⟨-, rfl, rfl, rfl⟩ := h
      obtain ⟨n, -, h0, h1, -, rfl⟩ := cutAt?_of_cut? hc
      simp only [List.length_drop, List.length_cons]
      omega
    · simp at h

end Plan

/-! ### Values by plan -/

namespace Resolution

variable {r : Registry} {s : Store} {u : Urn} {p : Path}

theorem valuesOf_identity {f : IdentityField} (h : IdentityField.ofPath? p = some f) :
    valuesOf r s u p = [f.value u] := by
  rw [valuesOf.eq_def, h]

theorem valuesOf_time (hi : IdentityField.ofPath? p = none)
    (hp : Plan.of? r u.entityType p = none) : valuesOf r s u p = timeOf r s u p := by
  rw [valuesOf.eq_def, hi]
  cases p with
  | nil => rfl
  | cons a fields =>
    cases ha : r.aspect? u.entityType a with
    | none => simp only [ha]
    | some spec =>
      simp only [Plan.of?, ha, Option.bind_eq_bind, Option.bind_some] at hp
      split at hp <;> simp at hp

theorem valuesOf_local {a : String} {fs : List String} (hi : IdentityField.ofPath? p = none)
    (hp : Plan.of? r u.entityType p = some (.local a fs)) :
    valuesOf r s u p = textsAt s u a fs := by
  rw [valuesOf.eq_def, hi]
  cases p with
  | nil => simp [Plan.of?] at hp
  | cons a' fields =>
    simp only [Plan.of?, Option.bind_eq_bind, Option.bind_eq_some_iff] at hp
    obtain ⟨spec, hs, hp⟩ := hp
    split at hp
    · simp at hp
    · next hc =>
      simp only [Option.some.injEq, Plan.local.injEq] at hp
      obtain ⟨rfl, rfl⟩ := hp
      simp only [hs, Plan.cut?_eq_none_iff.mp hc]

theorem valuesOf_hop {a : String} {fs ts : List String} {rest : Path}
    (hi : IdentityField.ofPath? p = none)
    (hp : Plan.of? r u.entityType p = some (.hop a fs ts rest)) :
    valuesOf r s u p = ((textsAt s u a fs).filterMap Urn.ofText?).flatMap fun t =>
      if (s.entity? t).isSome then valuesOf r s t rest else [] := by
  rw [valuesOf.eq_def, hi]
  cases p with
  | nil => simp [Plan.of?] at hp
  | cons a' fields =>
    simp only [Plan.of?, Option.bind_eq_bind, Option.bind_eq_some_iff] at hp
    obtain ⟨spec, hs, hp⟩ := hp
    split at hp
    · next part targets rest' hc =>
      simp only [Option.some.injEq, Plan.hop.injEq] at hp
      obtain ⟨rfl, rfl, rfl, rfl⟩ := hp
      obtain ⟨n, hn, -, -, rfl, rfl⟩ := Plan.cutAt?_of_cut? hc
      simp only [hs, hn]
    · simp at hp

theorem textsAt_absent (h : s.entity? u = none) (a : String) (fs : List String) :
    textsAt s u a fs = [] := by
  simp [textsAt, Store.aspect?, h]

/-- Nothing is known about an entity that is not in the store but its name. -/
theorem valuesOf_absent (h : s.entity? u = none) (hi : IdentityField.ofPath? p = none) :
    valuesOf r s u p = [] := by
  cases hp : Plan.of? r u.entityType p with
  | none =>
    rw [valuesOf_time hi hp, timeOf, h]
    cases SystemField.ofPath? p <;> rfl
  | some plan =>
    cases plan with
    | «local» a fs => rw [valuesOf_local hi hp, textsAt_absent h]
    | hop a fs ts rest => rw [valuesOf_hop hi hp, textsAt_absent h]; rfl

end Resolution
end CatalogRules

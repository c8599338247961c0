import CatalogRules.Platform.Basic
import CatalogRules.Proofs.Action.Handling
import CatalogRules.Proofs.Looking
import Mathlib.Data.Set.List

/-! # Admitted actions

The parameters of an action are admissible (`ActionKind.Admissible`) if `values` is a list of names
of entities of the types that the kind takes; a domain is set by a single name, and it is unset
without any. These are the parameters that have arguments (`Arguments.exists_read_iff`), and an action
with such parameters is accepted if its kind has a handler (`Handlers.validate_eq_ok_iff`).

`Handlers.perform` applies an action step by step: it validates, reads the arguments and edits one
entity after the other. It does what `Handlers.apply` says (`Handlers.run_perform`), so that an action
is applied as a whole or not at all (`Handlers.apply_all_or_nothing`). -/

namespace CatalogRules

/-! ### Arguments -/

/-- The parameters are what an action of the kind needs. -/
def ActionKind.Admissible (kind : ActionKind) (params : Params) : Prop :=
  kind = .unsetDomain ∨ ∃ values types, params.lookup "values" = some values ∧
    Arguments.expectedTypes kind = some types ∧ values ≠ [] ∧
    (∀ v ∈ values, ∃ u : Urn, u.text = v ∧ u.entityType ∈ types) ∧
    (kind = .setDomain → values.length = 1)

namespace Arguments

variable {kind : ActionKind} {params : Params} {us : List Urn} {args : Arguments}

theorem urns_eq_ok : ∀ {raw : List String} {us : List Urn},
    urns raw = .ok us ↔ us.map Urn.text = raw
  | [], us => by simp [urns, eq_comm]
  | v :: raw, us => by
    rw [urns]
    cases hv : Urn.ofText? v with
    | none =>
      refine iff_of_false (fun h => by cases h) fun h => ?_
      obtain ⟨u, us, rfl, rfl, -⟩ := List.map_eq_cons_iff.mp h
      rw [Urn.ofText?_text] at hv
      cases hv
    | some u =>
      have hu : u.text = v := Urn.text_of_ofText? hv
      simp only [bind_eq_ok, urns_eq_ok, Except.ok.injEq, List.map_eq_cons_iff]
      constructor
      · rintro ⟨vs, hvs, rfl⟩
        exact ⟨u, vs, rfl, hu, hvs⟩
      · rintro ⟨w, ws, rfl, hw, hws⟩
        exact ⟨ws, hws, by rw [Urn.text_injective (hu.trans hw.symm)]⟩

theorem readValues_unsetDomain (params : Params) : readValues .unsetDomain params = .ok [] := rfl

/-- Other kinds take the names that are written in `values`. -/
theorem readValues_eq_ok (hkind : kind ≠ .unsetDomain) : readValues kind params = .ok us ↔
    us ≠ [] ∧ params.lookup "values" = some (us.map Urn.text) := by
  unfold readValues
  rw [if_neg hkind]
  split
  · next hnone => simp [hnone]
  · next hempty =>
    simp only [hempty, reduceCtorEq, Option.some.injEq, false_iff, not_and]
    exact fun hne hmap => hne (List.map_eq_nil_iff.mp hmap.symm)
  · next raw hne hraw =>
    rw [urns_eq_ok, hraw, Option.some.injEq, @eq_comm _ raw, iff_and_self]
    rintro h rfl
    exact hne h.symm

theorem exists_expectedTypes (hkind : kind ≠ .unsetDomain) :
    ∃ types, expectedTypes kind = some types := by
  cases kind <;> first | exact ⟨_, rfl⟩ | exact absurd rfl hkind

theorem misfit?_eq_none {types : List String} (ht : expectedTypes kind = some types) :
    misfit? kind us = none ↔ ∀ u ∈ us, u.entityType ∈ types := by
  have hfind : misfit? kind us =
      (us.find? fun u => ¬ types.contains u.entityType).map fun u => (u, types) := by
    unfold misfit?
    rw [ht]
    exact Option.map_eq_bind.symm
  rw [hfind, Option.map_eq_none_iff, List.find?_eq_none]
  simp

/-- What is read are the values, if their number and their types are those of the kind. -/
theorem read_eq_ok : read kind params = .ok args ↔ readValues kind params = .ok args.values ∧
    (kind = .setDomain → args.values.length = 1) ∧ misfit? kind args.values = none ∧
    args.ownershipType = readOwnership params := by
  obtain ⟨us, ownership⟩ := args
  unfold read
  cases hvs : readValues kind params with
  | error cause => simp [bind, Except.bind]
  | ok vs =>
    show (if kind = .setDomain ∧ vs.length ≠ 1 then _ else _) = _ ↔ _
    by_cases hus : vs = us
    · subst hus
      cases hmisfit : misfit? kind vs with
      | none =>
        split_ifs with hcount
        · refine iff_of_false (fun h => by cases h) ?_
          rintro ⟨-, hone, -, -⟩
          exact hcount.2 (hone hcount.1)
        · have hone : kind = .setDomain → vs.length = 1 := by simpa using hcount
          simp only [Except.ok.injEq, mk.injEq, true_and, eq_comm, and_iff_right hone]
      | some pair => split_ifs <;> simp
    · split_ifs
      · simp [hus]
      · split <;> simp [hus]

/-- **Admissible parameters are those that have arguments.** -/
theorem exists_read_iff : (∃ args, read kind params = .ok args) ↔ kind.Admissible params := by
  constructor
  · rintro ⟨args, h⟩
    obtain ⟨hvalues, hone, hmisfit, -⟩ := read_eq_ok.mp h
    by_cases hkind : kind = .unsetDomain
    · exact Or.inl hkind
    obtain ⟨hne, hlookup⟩ := (readValues_eq_ok hkind).mp hvalues
    obtain ⟨types, ht⟩ := exists_expectedTypes hkind
    refine Or.inr ⟨_, types, hlookup, ht, by simpa using hne, fun v hv => ?_, by simpa using hone⟩
    obtain ⟨u, hu, rfl⟩ := List.mem_map.mp hv
    exact ⟨u, rfl, (misfit?_eq_none ht).mp hmisfit u hu⟩
  · rintro (rfl | ⟨values, types, hlookup, ht, hne, hurns, hone⟩)
    · exact ⟨⟨[], readOwnership params⟩,
        read_eq_ok.mpr ⟨readValues_unsetDomain params, fun h => (by cases h), rfl, rfl⟩⟩
    have hkind : kind ≠ .unsetDomain := fun h => by
      rw [h] at ht
      cases ht
    -- the names that are written are the values
    have hrange : values ∈ Set.range (List.map Urn.text) := by
      rw [Set.range_list_map]
      intro v hv
      obtain ⟨u, hu, -⟩ := hurns v hv
      exact ⟨u, hu⟩
    obtain ⟨us, rfl⟩ := hrange
    refine ⟨⟨us, readOwnership params⟩, read_eq_ok.mpr ⟨?_, by simpa using hone, ?_, rfl⟩⟩
    · exact (readValues_eq_ok hkind).mpr ⟨by simpa using hne, hlookup⟩
    · refine (misfit?_eq_none ht).mpr fun u hu => ?_
      obtain ⟨w, hw, hmem⟩ := hurns u.text (List.mem_map_of_mem hu)
      rw [← Urn.text_injective hw]
      exact hmem

end Arguments
/-! ### Handlers -/

namespace Handlers

variable {h : Handlers} {kind : ActionKind} {params : Params} {us : List Urn} {s s' : Store}
  {now : Int} {e : Failure}

/-- **Parameters are accepted if there is a handler and they are admissible.** -/
theorem validate_eq_ok_iff :
    h.validate kind params = .ok () ↔ kind ∈ h ∧ kind.Admissible params := by
  rw [← Arguments.exists_read_iff]
  unfold validate
  split_ifs with hk
  · have hmem : kind ∈ h := List.contains_iff_mem.mp hk
    cases Arguments.read kind params <;> simp [hmem]
  · have hmem : kind ∉ h := mt List.contains_iff_mem.mpr hk
    simp [hmem]

theorem apply_of_error (hv : h.validate kind params = .error e) :
    h.apply now kind params us s = .error e := by
  rw [apply, hv]
  rfl

/-- What is accepted is applied. -/
theorem apply_of_ok (hv : h.validate kind params = .ok ()) : ∃ args,
    Arguments.read kind params = .ok args ∧ ∀ now us s,
      h.apply now kind params us s = .ok (Edit.store now kind args s us) := by
  obtain ⟨hk, hadmissible⟩ := validate_eq_ok_iff.mp hv
  obtain ⟨args, hread⟩ := Arguments.exists_read_iff.mpr hadmissible
  exact ⟨args, hread, apply_eq (List.contains_iff_mem.mpr hk) hread⟩

/-! ### Step by step -/

/-- A result or a failure as a computation on a store. -/
def outcome {α : Type} (x : Except Failure α) : ExceptT Failure (StateM Store) α :=
  ExceptT.mk (pure x)

/-- Applies an action step by step: its parameters are validated, and if there are entities their
arguments are read and the entities are edited one after the other. What was done to the store before
a failure remains. -/
def perform (h : Handlers) (now : Int) (kind : ActionKind) (params : Params) (us : List Urn) :
    ExceptT Failure (StateM Store) Unit := do
  outcome (h.validate kind params)
  if us = [] then return
  let args ← outcome ((Arguments.read kind params).mapError (.action kind))
  us.forM fun u => modify fun s =>
    s.modifyAspect now u kind.target.aspect (Edit.value kind.target kind.editMode args)

theorem run_edits (args : Arguments) : ∀ (us : List Urn) (s : Store),
    (us.forM fun u => modify fun s => s.modifyAspect now u kind.target.aspect
      (Edit.value kind.target kind.editMode args) : ExceptT Failure (StateM Store) Unit).run s =
        (.ok (), Edit.store now kind args s us)
  | [], _ => rfl
  | _ :: us, _ => run_edits args us _

/-- **Step by step, an action does what it does as a whole**; if it fails, nothing was done. -/
theorem run_perform (h : Handlers) (now : Int) (kind : ActionKind) (params : Params)
    (us : List Urn) (s : Store) : (h.perform now kind params us).run s =
      match h.apply now kind params us s with
      | .ok s' => (.ok (), s')
      | .error e => (.error e, s) := by
  cases hv : h.validate kind params with
  | error e =>
    rw [apply_of_error hv, perform, hv]
    rfl
  | ok _ =>
    obtain ⟨args, hread, happly⟩ := apply_of_ok hv
    rw [happly, perform, hv, hread]
    by_cases hus : us = []
    · subst hus
      rfl
    · rw [if_neg hus]
      exact run_edits args us s

/-- An action that fails on the platform leaves the store as it was. -/
theorem store_of_applyAction {a : Action} {p q : Platform}
    (hrun : (Run.applyAction a us).run p = (.error e, q)) : q.store = p.store := by
  unfold Run.applyAction at hrun
  rw [Run.run_bind, Run.run_call] at hrun
  cases ho : p.outage? (.applyAction a.kind us a.params) with
  | some message =>
    rw [ho] at hrun
    cases hrun
    rfl
  | none =>
    rw [ho] at hrun
    dsimp only at hrun
    rw [Run.run_get_bind] at hrun
    dsimp only at hrun
    split at hrun
    · cases hrun
    · cases hrun
      rfl

/-- **An action is applied as a whole or not at all**, as the validation of its parameters says: they
are accepted if there is a handler and they are admissible. An action whose parameters are accepted
succeeds, whatever the store and the entities are, and without entities it changes nothing; one whose
parameters are refused fails for the same reason, and the store is as it was before. -/
theorem apply_all_or_nothing (h : Handlers) (kind : ActionKind) (params : Params) :
    (h.validate kind params = .ok () ↔ kind ∈ h ∧ kind.Admissible params) ∧
    ∀ (now : Int) (us : List Urn) (s : Store),
      ((∃ s', h.apply now kind params us s = .ok s') ↔ h.validate kind params = .ok ()) ∧
      (∀ e, h.apply now kind params us s = .error e ↔ h.validate kind params = .error e) ∧
      (h.perform now kind params us).run s = (match h.apply now kind params us s with
        | .ok s' => (.ok (), s')
        | .error e => (.error e, s)) ∧
      (∀ e s', (h.perform now kind params us).run s = (.error e, s') → s' = s) ∧
      (∀ p e q, (Run.applyAction ⟨kind, params⟩ us).run p = (.error e, q) → q.store = p.store) ∧
      (us = [] → h.validate kind params = .ok () →
        (h.perform now kind params us).run s = (.ok (), s)) := by
  refine ⟨validate_eq_ok_iff, fun now us s => ?_⟩
  have hrun := run_perform h now kind params us s
  cases hv : h.validate kind params with
  | error e =>
    have happly : h.apply now kind params us s = .error e := apply_of_error hv
    rw [happly] at hrun
    refine ⟨by simp [happly], by simp [happly], by rw [happly, hrun], fun e' s' hs' => ?_,
      fun p e q hrun => store_of_applyAction hrun, fun _ hok => by cases hok⟩
    rw [hrun] at hs'
    cases hs'
    rfl
  | ok _ =>
    obtain ⟨args, -, happly⟩ := apply_of_ok hv
    have hstore := happly now us s
    rw [hstore] at hrun
    refine ⟨by simp [hstore], by simp [hstore], by rw [hstore, hrun], fun e' s' hs' => ?_,
      fun p e q hrun => store_of_applyAction hrun, ?_⟩
    · rw [hrun] at hs'
      cases hs'
    · rintro rfl -
      exact hrun

/-- Tags are added to no thing by a text that names no entity, and to none by the names of tags. -/
theorem apply_tags_nothing :
    let h : Handlers := [.addTags]
    let u : Urn := ⟨"thing", "1", by decide, by decide, by decide⟩
    let bad : Params := [("values", ["urn:li:tag:new", "new"])]
    let good : Params := [("values", ["urn:li:tag:new"])]
    (∃ e, (h.perform 0 .addTags bad (List.replicate 100 u)).run (.ofTags u) =
      (.error e, .ofTags u)) ∧
    h.validate .addTags good = .ok () ∧
    (h.perform 0 .addTags good []).run (.ofTags u) = (.ok (), .ofTags u) := by
  intro h u bad good
  have hbad : h.validate .addTags bad = .error (.action .addTags (.notUrn "new")) := by rfl
  have hgood : h.validate .addTags good = .ok () := by rfl
  obtain ⟨-, hall⟩ := apply_all_or_nothing h .addTags bad
  obtain ⟨-, herror, hrun, -, -⟩ := hall 0 (List.replicate 100 u) (.ofTags u)
  obtain ⟨-, hall⟩ := apply_all_or_nothing h .addTags good
  obtain ⟨-, -, -, -, -, hnone⟩ := hall 0 [] (.ofTags u)
  rw [(herror _).mpr hbad] at hrun
  exact ⟨⟨_, hrun⟩, hgood, hnone rfl hgood⟩

end Handlers
end CatalogRules

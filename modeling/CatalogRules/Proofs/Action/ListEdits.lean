import CatalogRules.Action.Edit
import CatalogRules.Proofs.Collections
import CatalogRules.Proofs.Predicate.Accepted
import Mathlib.Data.List.Induction

/-! # Edited lists

The elements of a list are told apart by the entity names that they hold (`Edit.Identifies`). What
adding, removing and replacing make of a list is said by `ActionKind.Edits`, for each kind of action
and whatever the elements are (`Edit.edits_items`); `ActionKind.Edited` says the same of an aspect
value, whose other fields stay as they are (`Edit.edited_value`).

Editing twice gives the same as editing once (`Edit.items_items`, `Edit.value_value`), and removing
what was added for names that no element held gives the old list back (`Edit.remove_add`). -/

namespace CatalogRules

open Json (Value)

theorem Keyed.put_put {α β : Type} [DecidableEq α] (k : α) (v w : β) (m : List (α × β)) :
    put k w (put k v m) = put k w m := by
  induction m with
  | nil => simp [put]
  | cons e rest ih =>
    obtain ⟨j, x⟩ := e
    by_cases hj : j = k
    · simp [put, hj]
    · simp [put, hj, ih]

/-- The other keys keep their values and their order. -/
theorem Keyed.filter_put {α β : Type} [DecidableEq α] (k : α) (v : β) (m : List (α × β)) :
    (put k v m).filter (fun e => e.1 ≠ k) = m.filter fun e => e.1 ≠ k := by
  induction m with
  | nil => simp [put]
  | cons e rest ih =>
    obtain ⟨j, x⟩ := e
    by_cases hj : j = k
    · simp [put, hj]
    · rw [put, if_neg hj, List.filter_cons, List.filter_cons, ih]

namespace Edit

variable {t : EditTarget} {ownershipType : String} {old : List Value} {us : List Urn} {u : Urn}

/-! ### Entity names in lists -/

/-- The element holds the entity name. -/
def Identifies (t : EditTarget) (u : Urn) (item : Value) : Prop := identity? t item = some u.text

/-- Some element of the list holds the entity name. -/
def Lists (t : EditTarget) (items : List Value) (u : Urn) : Prop := ∃ i ∈ items, Identifies t u i

instance (t : EditTarget) (u : Urn) (item : Value) : Decidable (Identifies t u item) :=
  inferInstanceAs (Decidable (_ = _))

instance (t : EditTarget) (items : List Value) (u : Urn) : Decidable (Lists t items u) :=
  inferInstanceAs (Decidable (∃ i ∈ items, Identifies t u i))

theorem any_identity? (t : EditTarget) (items : List Value) (u : Urn) :
    (items.any fun i => identity? t i == some u.text) = decide (Lists t items u) := by
  rw [Bool.eq_iff_iff, decide_eq_true_iff, List.any_eq_true]
  simp only [beq_iff_eq, Lists, Identifies]

theorem lists_append {xs ys : List Value} :
    Lists t (xs ++ ys) u ↔ Lists t xs u ∨ Lists t ys u := by
  simp [Lists, or_and_right, exists_or]

/-- The element for an entity name holds that name. -/
theorem identity?_element (t : EditTarget) (ownershipType : String) (u : Urn) :
    identity? t (element t ownershipType u) = some u.text := by
  unfold identity? element
  cases t.key with
  | none => rfl
  | some k => simp [Value.field?]

theorem identifies_element {v : Urn} : Identifies t u (element t ownershipType v) ↔ v = u := by
  rw [Identifies, identity?_element, Option.some.injEq]
  exact ⟨Urn.text_injective, congrArg Urn.text⟩

theorem lists_elements : Lists t (us.map (element t ownershipType)) u ↔ u ∈ us := by
  simp [Lists, identifies_element]

/-! ### Adding -/

/-- The distinct names that no element of the list holds, each at its first place. -/
def fresh (t : EditTarget) (old : List Value) (us : List Urn) : List Urn :=
  us.eraseDups.filter fun u => ¬ Lists t old u

theorem mem_fresh : u ∈ fresh t old us ↔ u ∈ us ∧ ¬ Lists t old u := by
  simp [fresh, List.mem_eraseDups]

/-- One more name is new unless it was given before. -/
theorem fresh_concat (t : EditTarget) (old : List Value) (us : List Urn) (u : Urn) :
    fresh t old (us ++ [u]) =
      fresh t old us ++ if u ∈ us ∨ Lists t old u then [] else [u] := by
  have hdups : (us ++ [u]).eraseDups = us.eraseDups ++ if u ∈ us then [] else [u] := by
    rw [List.eraseDups_append, List.removeAll]
    by_cases hu : u ∈ us <;> simp [hu, List.eraseDups_cons]
  rw [fresh, hdups, List.filter_append]
  refine congrArg (fresh t old us ++ ·) ?_
  by_cases hu : u ∈ us <;> by_cases hl : Lists t old u <;> simp [hu, hl]

/-- **Adding appends an element for each distinct name that no element holds.** -/
theorem foldl_addOne (t : EditTarget) (ownershipType : String) (us : List Urn) (old : List Value) :
    us.foldl (addOne t ownershipType) old =
      old ++ (fresh t old us).map (element t ownershipType) := by
  induction us using List.reverseRecOn with
  | nil => simp [fresh]
  | append_singleton us u ih =>
    have hlists : Lists t (old ++ (fresh t old us).map (element t ownershipType)) u ↔
        u ∈ us ∨ Lists t old u := by
      rw [lists_append, lists_elements, mem_fresh]
      tauto
    rw [List.foldl_append, ih, List.foldl_cons, List.foldl_nil, addOne, any_identity?,
      fresh_concat, List.map_append, ← List.append_assoc]
    simp only [decide_eq_true_iff, hlists]
    split_ifs <;> simp

theorem lists_foldl_addOne :
    Lists t (us.foldl (addOne t ownershipType) old) u ↔ Lists t old u ∨ u ∈ us := by
  rw [foldl_addOne, lists_append, lists_elements, mem_fresh]
  tauto

/-- Names that are held by elements add nothing. -/
theorem foldl_addOne_of_lists (h : ∀ u ∈ us, Lists t old u) :
    us.foldl (addOne t ownershipType) old = old := by
  have hfresh : fresh t old us = [] :=
    List.eq_nil_iff_forall_not_mem.mpr fun u hu => (mem_fresh.mp hu).2 (h u (mem_fresh.mp hu).1)
  rw [foldl_addOne, hfresh, List.map_nil, List.append_nil]

/-! ### Removing -/

theorem items_remove (t : EditTarget) (args : Arguments) (old : List Value) :
    items t .remove args old = old.filter fun i => ∀ u ∈ args.values, ¬ Identifies t u i := by
  refine List.filter_congr fun i _ => decide_eq_decide.mpr ?_
  simp [Identifies]

/-- **Removing what was added for names that no element held gives the old list back.** -/
theorem remove_add {args : Arguments} (h : ∀ u ∈ args.values, ¬ Lists t old u) :
    items t .remove args (items t .add args old) = old := by
  have hold : old.filter (fun i => ∀ u ∈ args.values, ¬ Identifies t u i) = old :=
    List.filter_eq_self.mpr fun i hi => decide_eq_true fun u hu hid => h u hu ⟨i, hi, hid⟩
  have hnew : ((fresh t old args.values).map (element t args.ownershipType)).filter
      (fun i => ∀ u ∈ args.values, ¬ Identifies t u i) = [] := by
    refine List.filter_eq_nil_iff.mpr fun i hi hnot => ?_
    obtain ⟨u, hu, rfl⟩ := List.mem_map.mp hi
    exact of_decide_eq_true hnot u (mem_fresh.mp hu).1 (identifies_element.mpr rfl)
  have hadd : items t .add args old = _ := foldl_addOne t args.ownershipType args.values old
  rw [items_remove, hadd, List.filter_append, hold, hnew, List.append_nil]

/-! ### Any edit -/

/-- **Editing a list twice gives the same as editing it once.** -/
theorem items_items (t : EditTarget) (mode : EditMode) (args : Arguments) (old : List Value) :
    items t mode args (items t mode args old) = items t mode args old := by
  cases mode with
  | add => exact foldl_addOne_of_lists fun u hu => lists_foldl_addOne.mpr (Or.inr hu)
  | replace => rfl
  | remove => simp only [items_remove, List.filter_filter, Bool.and_self]

/-- After adding or replacing, every given name is held by an element. -/
theorem lists_items {mode : EditMode} {args : Arguments} (hm : mode ≠ .remove)
    (hu : u ∈ args.values) : Lists t (items t mode args old) u := by
  cases mode with
  | add => exact lists_foldl_addOne.mpr (Or.inr hu)
  | replace => exact lists_foldl_addOne.mpr (Or.inr hu)
  | remove => exact absurd rfl hm

/-- After removing, no given name is held by an element. -/
theorem not_lists_remove {args : Arguments} (hu : u ∈ args.values) :
    ¬ Lists t (items t .remove args old) u := by
  rintro ⟨i, hi, hid⟩
  rw [items_remove, List.mem_filter] at hi
  exact of_decide_eq_true hi.2 u hu hid

end Edit

/-! ### Kinds of actions -/

/-- The list that an action makes of the old one. -/
def ActionKind.Edits (kind : ActionKind) (args : Arguments) (old new : List Value) : Prop :=
  match kind with
  | .addTags | .addGlossaryTerms | .addDomains | .addOwners =>
    new = old ++ (Edit.fresh kind.target old args.values).map
      (Edit.element kind.target args.ownershipType)
  | .removeTags | .removeGlossaryTerms | .removeDomains | .removeOwners =>
    new = old.filter fun i => ∀ u ∈ args.values, ¬ Edit.Identifies kind.target u i
  | .setDomain => ∃ domain, args.values = [domain] ∧ new = [.string domain.text]
  | .unsetDomain => new = []

namespace Arguments

variable {kind : ActionKind} {params : Params} {args : Arguments}

theorem read_ok (h : read kind params = .ok args) : readValues kind params = .ok args.values ∧
    (kind = .setDomain → args.values.length = 1) := by
  obtain ⟨values, hvalues, h⟩ := bind_eq_ok.mp h
  split_ifs at h with hset
  split at h
  · cases h
  · cases h
    exact ⟨hvalues, fun hkind => not_not.mp fun hl => hset ⟨hkind, hl⟩⟩

/-- The arguments of two kinds are the same if the kinds allow the same values. -/
theorem read_eq {kind' : ActionKind} (htypes : expectedTypes kind' = expectedTypes kind)
    (hset : kind' ≠ .setDomain) (hunset : kind' ≠ .unsetDomain) (hunset' : kind ≠ .unsetDomain)
    (h : read kind params = .ok args) : read kind' params = .ok args := by
  obtain ⟨values, hvalues, h⟩ := bind_eq_ok.mp h
  split_ifs at h with hone
  refine bind_eq_ok.mpr ⟨values, ?_, ?_⟩
  · rw [readValues, if_neg hunset'] at hvalues
    rw [readValues, if_neg hunset]
    exact hvalues
  · rw [if_neg fun h => hset h.1]
    unfold misfit? at h ⊢
    rw [htypes]
    exact h

end Arguments

namespace Edit

variable {kind : ActionKind} {params : Params} {args : Arguments}

/-- **Each kind of action edits its list as it says.** -/
theorem edits_items (h : Arguments.read kind params = .ok args) (old : List Value) :
    kind.Edits args old (items kind.target kind.editMode args old) := by
  obtain ⟨hvalues, hone⟩ := Arguments.read_ok h
  cases kind with
  | addTags | addGlossaryTerms | addDomains | addOwners => exact foldl_addOne _ _ _ _
  | removeTags | removeGlossaryTerms | removeDomains | removeOwners => exact items_remove _ _ _
  | setDomain =>
    obtain ⟨domain, hd⟩ := List.length_eq_one_iff.mp (hone rfl)
    refine ⟨domain, hd, ?_⟩
    show args.values.foldl _ [] = _
    rw [hd]
    rfl
  | unsetDomain =>
    have hnil : args.values = [] := (Except.ok.inj hvalues).symm
    show args.values.foldl _ [] = _
    rw [hnil]
    rfl

/-! ### Aspect values -/

/-- The fields of a value; what is no object has none. -/
def fieldsOf : Value → List (String × Value)
  | .object fields => fields
  | _ => []

/-- The list in an aspect value; what is no list counts as an empty one. -/
def listIn (t : EditTarget) (v : Value) : List Value :=
  match (fieldsOf v).lookup t.list with
  | some (.array items) => items
  | _ => []

theorem value_eq (t : EditTarget) (mode : EditMode) (args : Arguments) (v : Value) :
    value t mode args v =
      .object (Keyed.put t.list (.array (items t mode args (listIn t v))) (fieldsOf v)) := by
  cases v <;> rfl

theorem listIn_value (t : EditTarget) (mode : EditMode) (args : Arguments) (v : Value) :
    listIn t (value t mode args v) = items t mode args (listIn t v) := by
  rw [value_eq, listIn, fieldsOf, Keyed.lookup_put, if_pos rfl]

/-- **Editing an aspect value twice gives the same as editing it once.** -/
theorem value_value (t : EditTarget) (mode : EditMode) (args : Arguments) (v : Value) :
    value t mode args (value t mode args v) = value t mode args v := by
  rw [value_eq t mode args (value t mode args v), listIn_value, items_items]
  rw [value_eq, fieldsOf, Keyed.put_put]

end Edit

/-- What an action makes of an aspect value: an object whose list is edited and whose other fields
keep their values and their order. A list field that was there keeps its place. -/
structure ActionKind.Edited (kind : ActionKind) (args : Arguments) (old new : Value) : Prop where
  list : ∃ items, new.field? kind.target.list = some (.array items) ∧
    kind.Edits args (Edit.listIn kind.target old) items
  others : ∃ fields, new = .object fields ∧ fields.filter (fun f => f.1 ≠ kind.target.list) =
    (Edit.fieldsOf old).filter (fun f => f.1 ≠ kind.target.list)
  place : kind.target.list ∈ (Edit.fieldsOf old).map (·.1) →
    (Edit.fieldsOf new).map (·.1) = (Edit.fieldsOf old).map (·.1)

theorem Edit.edited_value {kind : ActionKind} {params : Params} {args : Arguments}
    (h : Arguments.read kind params = .ok args) (v : Value) :
    kind.Edited args v (Edit.value kind.target kind.editMode args v) where
  list := by
    refine ⟨items kind.target kind.editMode args (listIn kind.target v), ?_, edits_items h _⟩
    rw [value_eq, Value.field?, Keyed.lookup_put, if_pos rfl]
  others := ⟨_, value_eq _ _ _ _, Keyed.filter_put _ _ _⟩
  place hmem := by
    rw [value_eq]
    exact Keyed.keys_put_of_mem hmem

end CatalogRules

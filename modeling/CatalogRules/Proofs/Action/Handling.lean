import CatalogRules.Proofs.Action.ListEdits

/-! # What the handlers of actions do

A handler edits one aspect of each of its entities and leaves the rest of the store as it was
(`Edit.aspect?_store`, `Edit.entity?_store`). With arguments that can be read it never fails, and
what it does is `Edit.Effect`: the aspect of each entity is edited as the kind of action says.

`Handlers.handle_exact` adds what follows when actions are applied one after the other: the same
action again changes no value, and removing what was added for names that no element held gives the
old lists back. -/

namespace CatalogRules

open Json (Value)

namespace Store

/-- The value of an aspect; a missing one counts as an empty object. -/
def valueOf (s : Store) (u : Urn) (name : String) : Value :=
  ((s.aspect? u name).map (·.value)).getD (.object [])

/-- The list of an entity that a kind of action edits. -/
def listOf (s : Store) (kind : ActionKind) (u : Urn) : List Value :=
  Edit.listIn kind.target (s.valueOf u kind.target.aspect)

end Store

namespace Edit

variable {now : Int} {kind : ActionKind} {args : Arguments} {s s' : Store} {us : List Urn} {u : Urn}

/-- The aspect after an edit, with a new stamp. -/
def envelope (now : Int) (kind : ActionKind) (args : Arguments) (e : Envelope) : Envelope :=
  { e with value := value kind.target kind.editMode args e.value, created := some ⟨now, none⟩ }

theorem envelope_envelope (now : Int) (kind : ActionKind) (args : Arguments) (e : Envelope) :
    envelope now kind args (envelope now kind args e) = envelope now kind args e := by
  simp only [envelope, value_value]

/-! ### The store -/

theorem store_cons (now : Int) (kind : ActionKind) (args : Arguments) (s : Store) (u : Urn)
    (us : List Urn) : store now kind args s (u :: us) = store now kind args
      (s.modifyAspect now u kind.target.aspect (value kind.target kind.editMode args)) us := rfl

theorem definitions_store (now : Int) (kind : ActionKind) (args : Arguments) (s : Store)
    (us : List Urn) : (store now kind args s us).definitions = s.definitions := by
  induction us generalizing s with
  | nil => rfl
  | cons u us ih => exact ih _

/-- **Other entities are left alone.** -/
theorem entity?_store (now : Int) (kind : ActionKind) (args : Arguments) (s : Store)
    {us : List Urn} (hu : u ∉ us) : (store now kind args s us).entity? u = s.entity? u := by
  induction us generalizing s with
  | nil => rfl
  | cons v us ih =>
    rw [List.mem_cons, not_or] at hu
    obtain ⟨hv, hus⟩ := hu
    rw [store_cons, ih _ hus]
    exact (Store.entity?_putEntity s v u _).trans (if_neg hv)

/-- **The edited aspect of each entity is changed once**, however often the entity is given; all
other aspects are left alone. -/
theorem aspect?_store (now : Int) (kind : ActionKind) (args : Arguments) (s : Store)
    (us : List Urn) (u : Urn) (name : String) : (store now kind args s us).aspect? u name =
      if u ∈ us ∧ name = kind.target.aspect then
        some (envelope now kind args ((s.aspect? u name).getD (.ofValue (.object []))))
      else s.aspect? u name := by
  induction us generalizing s with
  | nil => simp [store]
  | cons v us ih =>
    have hone : (s.modifyAspect now v kind.target.aspect
        (value kind.target kind.editMode args)).aspect? u name =
          if u = v ∧ name = kind.target.aspect then
            some (envelope now kind args ((s.aspect? v kind.target.aspect).getD
              (.ofValue (.object []))))
          else s.aspect? u name := Store.aspect?_putAspect s v u _ name _
    rw [store_cons, ih, hone]
    by_cases hname : name = kind.target.aspect
    · subst hname
      by_cases hv : u = v
      · subst hv
        by_cases hu : u ∈ us <;> simp [hu, envelope_envelope]
      · simp [hv]
    · simp [hname]

/-! ### The effect -/

/-- **What an action does to a store**: it changes one aspect of its entities and nothing else. -/
structure Effect (now : Int) (kind : ActionKind) (args : Arguments) (us : List Urn)
    (s s' : Store) : Prop where
  definitions : s'.definitions = s.definitions
  entities : ∀ u, u ∉ us → s'.entity? u = s.entity? u
  aspects : ∀ u name, name ≠ kind.target.aspect → s'.aspect? u name = s.aspect? u name
  edited : ∀ u ∈ us, ∃ e, s'.aspect? u kind.target.aspect = some e ∧
    kind.Edited args (s.valueOf u kind.target.aspect) e.value ∧ e.created = some ⟨now, none⟩ ∧
    e.systemMetadata = (s.aspect? u kind.target.aspect).bind (·.systemMetadata)

theorem effect_store {params : Params} (h : Arguments.read kind params = .ok args) (now : Int)
    (us : List Urn) (s : Store) : Effect now kind args us s (store now kind args s us) where
  definitions := definitions_store now kind args s us
  entities _ hu := entity?_store now kind args s hu
  aspects u name hname := by rw [aspect?_store, if_neg fun hn => hname hn.2]
  edited u hu := by
    refine ⟨_, by rw [aspect?_store, if_pos ⟨hu, rfl⟩], ?_, rfl, ?_⟩
    · have hvalue : s.valueOf u kind.target.aspect =
          ((s.aspect? u kind.target.aspect).getD (.ofValue (.object []))).value := by
        unfold Store.valueOf
        cases s.aspect? u kind.target.aspect <;> rfl
      rw [hvalue]
      exact edited_value h _
    · cases s.aspect? u kind.target.aspect <;> rfl

theorem valueOf_store (hu : u ∈ us) : (store now kind args s us).valueOf u kind.target.aspect =
    value kind.target kind.editMode args (s.valueOf u kind.target.aspect) := by
  unfold Store.valueOf
  rw [aspect?_store, if_pos ⟨hu, rfl⟩]
  cases s.aspect? u kind.target.aspect <;> rfl

theorem listOf_store (hu : u ∈ us) : (store now kind args s us).listOf kind u =
    items kind.target kind.editMode args (s.listOf kind u) := by
  rw [Store.listOf, valueOf_store hu, listIn_value, Store.listOf]

/-- **The same action again changes no value.** -/
theorem value_store_store (now now' : Int) (kind : ActionKind) (args : Arguments) (s : Store)
    (us : List Urn) (u : Urn) (name : String) :
    ((store now' kind args (store now kind args s us) us).aspect? u name).map (·.value) =
      ((store now kind args s us).aspect? u name).map (·.value) := by
  rw [aspect?_store now', aspect?_store now]
  by_cases hu : u ∈ us ∧ name = kind.target.aspect
  · simp [if_pos hu, envelope, value_value]
  · simp [if_neg hu]

end Edit

namespace Handlers

open Edit (Identifies Effect)

variable {kind kind' : ActionKind} {params : Params} {args : Arguments}

theorem handle_eq (h : Arguments.read kind params = .ok args) (now : Int) (us : List Urn)
    (s : Store) : handle now kind params us s = .ok (Edit.store now kind args s us) := by
  rw [handle, h]

theorem apply_eq {h : Handlers} (hk : h.contains kind = true)
    (hread : Arguments.read kind params = .ok args) (now : Int) (us : List Urn) (s : Store) :
    h.apply now kind params us s = .ok (Edit.store now kind args s us) := by
  unfold apply validate
  rw [if_pos hk, hread, handle_eq hread]
  split_ifs with hus
  · rw [hus]
    rfl
  · rfl

/-- A kind that adds and one that removes from the same list take the same arguments. -/
theorem read_remove (hadd : kind.editMode = .add) (hremove : kind'.editMode = .remove)
    (htarget : kind'.target = kind.target) (h : Arguments.read kind params = .ok args) :
    Arguments.read kind' params = .ok args := by
  have htypes : Arguments.expectedTypes kind' = Arguments.expectedTypes kind := by
    cases kind <;> cases hadd <;> cases kind' <;> cases hremove <;>
      first | rfl | exact absurd htarget (by decide)
  refine Arguments.read_eq htypes ?_ ?_ ?_ h <;> rintro rfl
  · cases hremove
  · cases hremove
  · cases hadd

/-- **Handlers edit lists exactly.** With arguments that can be read, a handler succeeds and has the
effect of its kind of action, through the registered handlers as well. The same action again changes
no value; each given name is held by an element after adding or replacing, and by none after
removing; and removing what was added for names that no element held gives the old list back. -/
theorem handle_exact (hread : Arguments.read kind params = .ok args) (now : Int) (us : List Urn)
    (s : Store) : ∃ s', handle now kind params us s = .ok s' ∧ Effect now kind args us s s' ∧
      (∀ h : Handlers, h.contains kind = true → h.apply now kind params us s = .ok s') ∧
      (∀ now', ∃ s'', handle now' kind params us s' = .ok s'' ∧
        ∀ u name, (s''.aspect? u name).map (·.value) = (s'.aspect? u name).map (·.value)) ∧
      (∀ u ∈ us, ∀ w ∈ args.values, if kind.editMode = .remove
        then ∀ i ∈ s'.listOf kind u, ¬ Identifies kind.target w i
        else ∃ i ∈ s'.listOf kind u, Identifies kind.target w i) ∧
      ∀ kind' now', kind.editMode = .add → kind'.editMode = .remove →
        kind'.target = kind.target → ∃ s'', handle now' kind' params us s' = .ok s'' ∧
          ∀ u ∈ us, (∀ w ∈ args.values, ∀ i ∈ s.listOf kind u, ¬ Identifies kind.target w i) →
            s''.listOf kind u = s.listOf kind u := by
  refine ⟨_, handle_eq hread now us s, Edit.effect_store hread now us s,
    fun h hk => apply_eq hk hread now us s,
    fun now' => ⟨_, handle_eq hread now' us _, Edit.value_store_store now now' kind args s us⟩,
    fun u hu w hw => ?_, fun kind' now' hadd hremove htarget => ?_⟩
  · rw [Edit.listOf_store hu]
    split_ifs with hmode
    · rw [hmode]
      exact fun i hi hid => Edit.not_lists_remove hw ⟨i, hi, hid⟩
    · exact Edit.lists_items hmode hw
  · have hread' := read_remove hadd hremove htarget hread
    refine ⟨_, handle_eq hread' now' us _, fun u hu hfree => ?_⟩
    -- both kinds edit the same list, so that one edit follows the other in it
    have hlist (s : Store) : s.listOf kind u = s.listOf kind' u := by
      rw [Store.listOf, Store.listOf, htarget]
    rw [hlist, Edit.listOf_store hu, ← hlist, Edit.listOf_store hu, hremove, hadd, htarget]
    exact Edit.remove_add fun w hw ⟨i, hi, hid⟩ => hfree w hw i hi hid

end Handlers

/-- The store of an entity with two tags: one that is seen already, and one without a name. -/
def Store.ofTags (u : Urn) : Store :=
  Store.empty.putAspect u "globalTags" (.ofValue (.object
    [("tags", .array [.object [("tag", .string "urn:li:tag:seen")], .null]), ("note", .null)]))

theorem Handlers.handle_tags :
    let u : Urn := ⟨"thing", "1", by decide, by decide, by decide⟩
    let new : Urn := ⟨"tag", "new", by decide, by decide, by decide⟩
    let params : Params := [("values", ["urn:li:tag:new", "urn:li:tag:new"])]
    let tags (s : Store) := (s.listOf .addTags u).map (Edit.identity? .tags)
    Arguments.read .addTags params = .ok ⟨[new, new], "NONE"⟩ ∧
      tags (.ofTags u) = [some "urn:li:tag:seen", none] ∧
      ∃ s', handle 0 .addTags params [u] (.ofTags u) = .ok s' ∧
        tags s' = [some "urn:li:tag:seen", none, some "urn:li:tag:new"] ∧
        ∃ s'', handle 0 .removeTags params [u] s' = .ok s'' ∧
          s''.listOf .addTags u = (Store.ofTags u).listOf .addTags u := by
  intro u new params tags
  have hread : Arguments.read .addTags params = .ok ⟨[new, new], "NONE"⟩ :=
    toOption_eq_some.mp (by decide +kernel)
  obtain ⟨s', hs', -, -, -, -, hundo⟩ := handle_exact hread 0 [u] (.ofTags u)
  obtain ⟨s'', hs'', hback⟩ := hundo .removeTags 0 rfl rfl rfl
  refine ⟨hread, by decide +kernel, s', hs', ?_, s'', hs'', hback u List.mem_cons_self ?_⟩
  · rw [handle_eq hread] at hs'
    cases hs'
    decide +kernel
  · decide +kernel

end CatalogRules

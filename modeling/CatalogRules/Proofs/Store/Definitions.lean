import CatalogRules.Proofs.Collections
import Mathlib.Data.List.Induction

/-! # The definitions of a store

The definitions of a store come about by puts and removals (`Store.CameBy`), those of a fixture
included. A put of a known id replaces the text in its place, a new id goes to the end, and a
removed id that is put again is new.

The history of an id tells all of this: its text is the one of its last edit (`latest?`), and its
place is the one of its first put since its last removal (`FirstPut`). `Store.CameBy.listed` puts
together what a store lists after a history; it is shown edit by edit (`Listed.concat`). -/

namespace CatalogRules

open Json (Document)

/-- An edit of the definitions of a store. -/
inductive DefinitionEdit where
  | put (id text : String)
  | remove (id : String)
  deriving DecidableEq

namespace DefinitionEdit

/-- The id that is edited. -/
def id : DefinitionEdit → String
  | put id _ => id
  | remove id => id

/-- The text that the id has after the edit. -/
def text? : DefinitionEdit → Option String
  | put _ text => some text
  | remove _ => none

/-- What the edit makes of a list of texts by their ids. -/
def apply (definitions : List (String × String)) : DefinitionEdit → List (String × String)
  | put id text => Keyed.put id text definitions
  | remove id => Keyed.erase id definitions

@[simp] theorem id_put (i text : String) : (put i text).id = i := rfl
@[simp] theorem id_remove (i : String) : (remove i).id = i := rfl
@[simp] theorem text?_put (i text : String) : (put i text).text? = some text := rfl
@[simp] theorem text?_remove (i : String) : (remove i).text? = none := rfl

end DefinitionEdit

/-! ### The history of an id -/

/-- The text that an id has after some edits: the one of its last edit. -/
def latest? (edits : List DefinitionEdit) (id : String) : Option String :=
  (edits.reverse.find? (·.id = id)).bind (·.text?)

/-- **The first put of an id since its last removal**: no removal follows it, and between any put
before it and itself there is a removal. -/
structure FirstPut (edits : List DefinitionEdit) (id : String) (n : Nat) : Prop where
  at_place : ∃ text, edits[n]? = some (.put id text)
  kept : ∀ m, n < m → edits[m]? ≠ some (.remove id)
  first : ∀ m < n, ∀ text, edits[m]? = some (.put id text) →
    ∃ k, m < k ∧ k < n ∧ edits[k]? = some (.remove id)

variable {edits : List DefinitionEdit} {e : DefinitionEdit} {id : String} {n : Nat}

theorem latest?_concat (edits : List DefinitionEdit) (e : DefinitionEdit) (id : String) :
    latest? (edits ++ [e]) id = if e.id = id then e.text? else latest? edits id := by
  unfold latest?
  rw [List.reverse_append, List.reverse_singleton, List.singleton_append, List.find?_cons]
  by_cases h : e.id = id <;> simp [h]

theorem FirstPut.lt_length (h : FirstPut edits id n) : n < edits.length := by
  obtain ⟨text, htext⟩ := h.at_place
  exact (List.getElem?_eq_some_iff.mp htext).1

/-- There is only one such place. -/
theorem FirstPut.unique {m : Nat} (h : FirstPut edits id n) (k : FirstPut edits id m) : n = m := by
  have hle {i j : Nat} (hi : FirstPut edits id i) (hj : FirstPut edits id j) : j ≤ i := by
    by_contra hlt
    obtain ⟨text, htext⟩ := hi.at_place
    obtain ⟨l, hil, -, hl⟩ := hj.first i (Nat.not_le.mp hlt) text htext
    exact hi.kept l hil hl
  exact Nat.le_antisymm (hle k h) (hle h k)

/-- The place of an id stays as long as the id is not removed. -/
theorem FirstPut.concat (h : FirstPut edits id n) (he : e ≠ .remove id) :
    FirstPut (edits ++ [e]) id n := by
  have hn := h.lt_length
  refine ⟨?_, fun m hm => ?_, fun m hm text htext => ?_⟩
  · rw [List.getElem?_append_left hn]
    exact h.at_place
  · rcases Nat.lt_or_ge m edits.length with hlt | hge
    · rw [List.getElem?_append_left hlt]
      exact h.kept m hm
    · rw [List.getElem?_append_right hge]
      intro hget
      exact he (List.mem_singleton.mp (List.mem_of_getElem? hget)).symm
  · rw [List.getElem?_append_left (hm.trans hn)] at htext
    obtain ⟨k, hmk, hkn, hk⟩ := h.first m hm text htext
    exact ⟨k, hmk, hkn, by rw [List.getElem?_append_left (hkn.trans hn), hk]⟩

/-- Every put of an id that is absent is followed by a removal. -/
theorem exists_remove (h : latest? edits id = none) {m : Nat} {text : String}
    (hm : edits[m]? = some (.put id text)) :
    ∃ k, m < k ∧ k < edits.length ∧ edits[k]? = some (.remove id) := by
  induction edits using List.reverseRecOn with
  | nil => simp at hm
  | append_singleton edits e ih =>
    rw [latest?_concat] at h
    have hlength : (edits ++ [e]).length = edits.length + 1 := by simp
    have hlast : (edits ++ [e])[edits.length]? = some e := by simp
    rcases Nat.lt_trichotomy m edits.length with hlt | rfl | hgt
    · by_cases he : e.id = id
      · -- the last edit of the id is the removal
        rw [if_pos he] at h
        cases e with
        | put => cases h
        | remove id' =>
          obtain rfl : id' = id := he
          exact ⟨edits.length, hlt, by omega, hlast⟩
      · rw [if_neg he] at h
        rw [List.getElem?_append_left hlt] at hm
        obtain ⟨k, hmk, hk, hremove⟩ := ih h hm
        exact ⟨k, hmk, by omega, by rw [List.getElem?_append_left hk, hremove]⟩
    · rw [hlast, Option.some.injEq] at hm
      subst hm
      simp at h
    · have := (List.getElem?_eq_some_iff.mp hm).1
      omega

/-- An absent id that is put gets the place of this put. -/
theorem firstPut_concat (h : latest? edits id = none) (text : String) :
    FirstPut (edits ++ [.put id text]) id edits.length := by
  refine ⟨⟨text, by simp⟩, fun m hm => ?_, fun m hm text' htext => ?_⟩
  · rw [List.getElem?_eq_none (by simp; omega)]
    rintro ⟨⟩
  · rw [List.getElem?_append_left hm] at htext
    obtain ⟨k, hmk, hk, hremove⟩ := exists_remove h htext
    exact ⟨k, hmk, hk, by rw [List.getElem?_append_left hk, hremove]⟩

/-! ### What is listed -/

/-- The place of one id is before the place of another. -/
def PutBefore (edits : List DefinitionEdit) (a b : String) : Prop :=
  ∃ n m, FirstPut edits a n ∧ FirstPut edits b m ∧ n < m

/-- **What a store lists after some edits**: each id once, with the text of its last edit, in order
of the first puts since the last removals. -/
structure Listed (edits : List DefinitionEdit) (definitions : List (String × String)) : Prop where
  unique : (definitions.map (·.1)).Nodup
  lookup : ∀ id, definitions.lookup id = latest? edits id
  placed : ∀ id ∈ definitions.map (·.1), ∃ n, FirstPut edits id n
  order : (definitions.map (·.1)).Pairwise (PutBefore edits)

namespace Listed

variable {definitions : List (String × String)}

theorem nil : Listed [] [] := ⟨List.nodup_nil, fun _ => rfl, by simp, List.Pairwise.nil⟩

/-- The places of listed ids stay if these are not removed. -/
theorem putBefore_concat {a b : String} (h : PutBefore edits a b) (ha : e ≠ .remove a)
    (hb : e ≠ .remove b) : PutBefore (edits ++ [e]) a b := by
  obtain ⟨n, m, hn, hm, hlt⟩ := h
  exact ⟨n, m, hn.concat ha, hm.concat hb, hlt⟩

theorem put (h : Listed edits definitions) (id text : String) :
    Listed (edits ++ [.put id text]) (Keyed.put id text definitions) := by
  have hput (a : String) : DefinitionEdit.put id text ≠ .remove a := nofun
  have horder : (definitions.map (·.1)).Pairwise (PutBefore (edits ++ [.put id text])) :=
    h.order.imp fun hab => putBefore_concat hab (hput _) (hput _)
  have hplaced : ∀ a ∈ definitions.map (·.1), ∃ n, FirstPut (edits ++ [.put id text]) a n :=
    fun a ha => (h.placed a ha).imp fun _ hn => hn.concat (hput a)
  refine ⟨Keyed.nodup_put id text h.unique, fun a => ?_, ?_, ?_⟩
  · rw [Keyed.lookup_put, latest?_concat, h.lookup]
    by_cases ha : a = id
    · simp [ha]
    · simp [ha, Ne.symm ha]
  all_goals
    by_cases hid : id ∈ definitions.map (·.1)
  · rw [Keyed.keys_put_of_mem hid]
    exact hplaced
  · -- a new id is placed behind all others
    have hnew := firstPut_concat ((h.lookup id).symm.trans (lookup_eq_none.mpr hid)) text
    intro a ha
    rcases Keyed.mem_keys_put.mp ha with rfl | ha
    · exact ⟨_, hnew⟩
    · exact hplaced a ha
  · rw [Keyed.keys_put_of_mem hid]
    exact horder
  · have hnew := firstPut_concat ((h.lookup id).symm.trans (lookup_eq_none.mpr hid)) text
    rw [Keyed.put_of_not_mem hid, List.map_append, List.pairwise_append]
    refine ⟨horder, List.pairwise_singleton _ _, fun a ha b hb => ?_⟩
    rw [List.mem_singleton.mp hb]
    obtain ⟨n, hn⟩ := h.placed a ha
    exact ⟨n, edits.length, hn.concat (hput a), hnew, hn.lt_length⟩

theorem remove (h : Listed edits definitions) (id : String) :
    Listed (edits ++ [.remove id]) (Keyed.erase id definitions) := by
  have hsub : ((Keyed.erase id definitions).map (·.1)).Sublist (definitions.map (·.1)) :=
    List.filter_sublist.map _
  have hne : ∀ a ∈ (Keyed.erase id definitions).map (·.1), DefinitionEdit.remove id ≠ .remove a := by
    rintro a ha heq
    obtain ⟨p, hp, rfl⟩ := List.mem_map.mp ha
    cases heq
    simpa using (List.mem_filter.mp hp).2
  refine ⟨h.unique.sublist hsub, fun a => ?_, fun a ha => ?_, ?_⟩
  · rw [Keyed.erase, lookup_filter_keys (fun k => decide (k ≠ id)), latest?_concat, h.lookup]
    by_cases ha : a = id
    · simp [ha]
    · simp [ha, Ne.symm ha]
  · obtain ⟨n, hn⟩ := h.placed a (hsub.subset ha)
    exact ⟨n, hn.concat (hne a ha)⟩
  · refine (h.order.sublist hsub).imp_of_mem fun ha hb hab => ?_
    exact putBefore_concat hab (hne _ ha) (hne _ hb)

/-- **An edit keeps the list in step with the history.** -/
theorem concat (h : Listed edits definitions) (e : DefinitionEdit) :
    Listed (edits ++ [e]) (e.apply definitions) := by
  cases e with
  | put id text => exact h.put id text
  | remove id => exact h.remove id

/-- The list after any edits. -/
theorem run (edits : List DefinitionEdit) : Listed edits (edits.foldl DefinitionEdit.apply []) := by
  induction edits using List.reverseRecOn with
  | nil => exact nil
  | append_singleton edits e ih =>
    rw [List.foldl_append]
    exact ih.concat e

end Listed

/-! ### Histories of stores -/

namespace Store

/-- The definitions in a fixture. -/
def fixtureDefinitions? : Document.Reader (List RawDefinition) :=
  Document.record? ["definitions", "entities"] fun levels slots =>
    match slots with
    | [definitions, _] =>
      Document.defaulted? (Document.list? definition?) [] levels definitions
    | _ => none

/-- The puts that load the definitions of a fixture. -/
def fixturePuts (text : String) : List DefinitionEdit :=
  ((Document.readText? fixtureDefinitions? text).getD []).map fun d => .put d.id d.text

/-- **The definitions of the store came about by the edits**, from nothing or from a fixture on.
Anything else that happens to the store leaves them alone. -/
inductive CameBy : Store → List DefinitionEdit → Prop
  | empty : CameBy .empty []
  | fixture {text : String} {s : Store} (h : ofFixture? text = some s) : CameBy s (fixturePuts text)
  | put {s : Store} {edits : List DefinitionEdit} (h : CameBy s edits) (id text : String) :
    CameBy (s.putDefinition id text) (edits ++ [.put id text])
  | remove {s : Store} {edits : List DefinitionEdit} (h : CameBy s edits) (id : String) :
    CameBy (s.removeDefinition id) (edits ++ [.remove id])
  | other {s s' : Store} {edits : List DefinitionEdit} (h : CameBy s edits)
    (definitions : s'.definitions = s.definitions) : CameBy s' edits

theorem definitions_putEntities (es : List (Urn × Aspects)) (s : Store) :
    (es.foldl (fun s e => s.putEntity e.1 e.2) s).definitions = s.definitions := by
  induction es generalizing s with
  | nil => rfl
  | cons e es ih => exact ih _

theorem definitions_putDefinitions (ds : List RawDefinition) (s : Store) :
    (ds.foldl (fun s d => s.putDefinition d.id d.text) s).definitions =
      (ds.map fun d => DefinitionEdit.put d.id d.text).foldl DefinitionEdit.apply s.definitions := by
  induction ds generalizing s with
  | nil => rfl
  | cons d ds ih => exact ih _

/-- A fixture loads its definitions one after the other. -/
theorem definitions_ofFixture? {text : String} {s : Store} (h : ofFixture? text = some s) :
    s.definitions = (fixturePuts text).foldl DefinitionEdit.apply [] := by
  obtain ⟨d, hd, h⟩ := Option.bind_eq_some_iff.mp h
  obtain ⟨slots, hslots, h⟩ := Option.bind_eq_some_iff.mp h
  match slots, h with
  | [definitions, entities], h =>
    obtain ⟨ds, hds, h⟩ := Option.bind_eq_some_iff.mp h
    obtain ⟨es, -, h⟩ := Option.bind_eq_some_iff.mp h
    cases h
    have hread : Document.readText? fixtureDefinitions? text = some ds :=
      Option.bind_eq_some_iff.mpr ⟨d, hd, Option.bind_eq_some_iff.mpr ⟨_, hslots, hds⟩⟩
    rw [definitions_putEntities, definitions_putDefinitions, fixturePuts, hread]
    rfl

/-- **A store lists what its history says.** -/
theorem CameBy.listed {s : Store} (h : s.CameBy edits) : Listed edits s.definitions := by
  induction h with
  | empty => exact .nil
  | fixture h =>
    rw [definitions_ofFixture? h]
    exact .run _
  | put h id text ih => exact ih.put id text
  | remove h id ih => exact ih.remove id
  | other h definitions ih =>
    rw [definitions]
    exact ih

end Store
end CatalogRules

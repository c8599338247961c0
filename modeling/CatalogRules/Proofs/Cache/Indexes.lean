import CatalogRules.Proofs.Collections
import CatalogRules.Snapshot
import Mathlib.Data.List.Dedup
import Mathlib.Data.List.Induction

/-! # The indexes of a snapshot

The index by ids is filled definition by definition: an id keeps the place at which it was met first
(`Keyed.pairwise_keys_ofPairs`) and gets the definition that was met last (`Keyed.lookup_ofPairs`).
The index by entity types is filled from the index by ids: under each type it lists the definitions
about that type, in the same order (`Snapshot.forType_ofDefinitions`), and it has no other types
(`Snapshot.mem_entityTypes_ofDefinitions`).

`Snapshot.Holds` puts together what the two indexes say about the definitions that a snapshot was
made of. -/

namespace CatalogRules

/-! ### The last value and the first place of a key -/

namespace Keyed

variable {α β : Type} [DecidableEq α]

theorem ofPairs_concat (xs : List (α × β)) (x : α × β) :
    ofPairs (xs ++ [x]) = put x.1 x.2 (ofPairs xs) := by
  rw [ofPairs, List.foldl_append]
  rfl

/-- Of several values of a key the last one counts. -/
theorem lookup_ofPairs (xs : List (α × β)) (k : α) :
    (ofPairs xs).lookup k = (xs.reverse.find? fun x => x.1 = k).map (·.2) := by
  induction xs using List.reverseRecOn with
  | nil => rfl
  | append_singleton xs x ih =>
    rw [ofPairs_concat, lookup_put, List.reverse_append, List.reverse_singleton,
      List.singleton_append, List.find?_cons]
    by_cases hk : k = x.1
    · simp [hk]
    · rw [if_neg hk, ih]
      simp [Ne.symm hk]

theorem mem_keys_ofPairs {xs : List (α × β)} {k : α} :
    k ∈ (ofPairs xs).map (·.1) ↔ k ∈ xs.map (·.1) := by
  induction xs using List.reverseRecOn with
  | nil => rfl
  | append_singleton xs x ih =>
    rw [ofPairs_concat, mem_keys_put, ih]
    simp only [List.map_append, List.map_cons, List.map_nil, List.mem_append, List.mem_singleton]
    exact or_comm

/-- The keys are in the order of their first places. -/
theorem pairwise_keys_ofPairs (xs : List (α × β)) : ((ofPairs xs).map (·.1)).Pairwise
    fun j k => (xs.map (·.1)).idxOf j < (xs.map (·.1)).idxOf k := by
  induction xs using List.reverseRecOn with
  | nil => exact List.Pairwise.nil
  | append_singleton xs x ih =>
    have hplace : ∀ k ∈ (ofPairs xs).map (·.1),
        ((xs ++ [x]).map (·.1)).idxOf k = (xs.map (·.1)).idxOf k := by
      intro k hk
      rw [List.map_append, List.idxOf_append_of_mem (mem_keys_ofPairs.mp hk)]
    have hold : ((ofPairs xs).map (·.1)).Pairwise fun j k =>
        ((xs ++ [x]).map (·.1)).idxOf j < ((xs ++ [x]).map (·.1)).idxOf k := by
      refine ih.imp_of_mem fun {j k} hj hk hjk => ?_
      rw [hplace j hj, hplace k hk]
      exact hjk
    rw [ofPairs_concat]
    by_cases hx : x.1 ∈ (ofPairs xs).map (·.1)
    · rw [keys_put_of_mem hx]
      exact hold
    · rw [put_of_not_mem hx, @List.map_append _ _ _ (ofPairs xs), List.pairwise_append]
      refine ⟨hold, List.pairwise_singleton _ _, fun j hj k hk => ?_⟩
      -- the new key has its place behind all others
      rw [List.mem_singleton.mp hk, hplace j hj, List.map_append,
        List.idxOf_append_of_notMem fun h => hx (mem_keys_ofPairs.mpr h)]
      have hlt := List.idxOf_lt_length_of_mem (mem_keys_ofPairs.mp hj)
      omega

end Keyed

namespace Snapshot

/-! ### The index by entity types -/

variable {m : List (String × List Definition)} {d : Definition} {ds : List Definition} {t : String}

theorem lookup_enlist (hd : d.entityTypes.Nodup) : ((enlist m d).lookup t).getD [] =
    (m.lookup t).getD [] ++ if t ∈ d.entityTypes then [d] else [] := by
  unfold enlist
  revert hd
  generalize d.entityTypes = types
  induction types generalizing m with
  | nil => simp
  | cons u types ih =>
    intro hd
    obtain ⟨hu, htypes⟩ := List.nodup_cons.mp hd
    rw [List.foldl_cons, ih htypes, Sorted.lookup_alter]
    by_cases ht : t = u
    · subst ht
      simp [hu]
    · simp [ht]

theorem mem_keys_enlist : t ∈ (enlist m d).map (·.1) ↔ t ∈ d.entityTypes ∨ t ∈ m.map (·.1) := by
  unfold enlist
  generalize d.entityTypes = types
  induction types generalizing m with
  | nil => simp
  | cons u types ih =>
    have hu := Sorted.mem_keys_alter (m := m) (k := u) (j := t) (f := fun ds => ds.getD [] ++ [d])
    refine (ih (m := Sorted.alter u (fun ds => ds.getD [] ++ [d]) m)).trans ?_
    rw [hu, List.mem_cons, ← or_assoc]
    exact or_congr_left or_comm

theorem pairwise_enlist (h : (m.map (·.1)).Pairwise (· < ·)) (d : Definition) :
    ((enlist m d).map (·.1)).Pairwise (· < ·) :=
  List.foldlRecOn (motive := fun m => (List.map Prod.fst m).Pairwise (· < ·)) d.entityTypes _ h
    fun _ hm _ _ => Sorted.pairwise_alter _ _ hm

/-- The index lists under each type the definitions about it, in order. -/
theorem lookup_foldl_enlist (hds : ∀ d ∈ ds, d.entityTypes.Nodup) :
    ((ds.foldl enlist m).lookup t).getD [] =
      (m.lookup t).getD [] ++ ds.filter (·.entityTypes.contains t) := by
  induction ds generalizing m with
  | nil => simp
  | cons d ds ih =>
    obtain ⟨hd, hds⟩ := List.forall_mem_cons.mp hds
    rw [List.foldl_cons, ih hds, lookup_enlist hd, List.append_assoc, List.filter_cons]
    by_cases ht : t ∈ d.entityTypes <;> simp [ht]

theorem mem_keys_foldl_enlist : t ∈ (ds.foldl enlist m).map (·.1) ↔
    (∃ d ∈ ds, t ∈ d.entityTypes) ∨ t ∈ m.map (·.1) := by
  induction ds generalizing m with
  | nil => simp
  | cons d ds ih =>
    rw [List.foldl_cons, ih, mem_keys_enlist, ← or_assoc]
    refine or_congr_left ?_
    simp only [List.mem_cons, exists_eq_or_imp, or_comm]

/-! ### What a snapshot holds -/

theorem mem_byId_ofDefinitions {id : String} (h : (id, d) ∈ (ofDefinitions ds).byId) :
    d ∈ ds ∧ d.id = id := by
  obtain ⟨d', hd', heq⟩ := List.mem_map.mp (Keyed.mem_ofPairs h)
  cases heq
  exact ⟨hd', rfl⟩

/-- Under each type there are the definitions about it, in the order of the index by ids. -/
theorem forType_ofDefinitions (hds : ∀ d ∈ ds, d.entityTypes.Nodup) (t : String) :
    (ofDefinitions ds).forType t =
      ((ofDefinitions ds).byId.map (·.2)).filter (·.entityTypes.contains t) := by
  have hmem : ∀ d ∈ (ofDefinitions ds).byId.map (·.2), d.entityTypes.Nodup := by
    intro d hd
    obtain ⟨e, he, rfl⟩ := List.mem_map.mp hd
    exact hds _ (mem_byId_ofDefinitions he).1
  exact lookup_foldl_enlist (m := []) hmem

theorem mem_entityTypes_ofDefinitions : t ∈ (ofDefinitions ds).entityTypes ↔
    ∃ d ∈ (ofDefinitions ds).byId.map (·.2), t ∈ d.entityTypes := by
  have h := @mem_keys_foldl_enlist [] ((ofDefinitions ds).byId.map (·.2)) t
  rw [List.map_nil, or_iff_left List.not_mem_nil] at h
  exact h

theorem pairwise_entityTypes_ofDefinitions :
    (ofDefinitions ds).entityTypes.Pairwise (· < ·) := by
  have h := List.foldlRecOn (motive := fun m => (List.map Prod.fst m).Pairwise (· < ·))
    ((ofDefinitions ds).byId.map (·.2)) enlist (b := []) List.Pairwise.nil
    fun _ hm d _ => pairwise_enlist hm d
  exact h

/-- **What the indexes say about the definitions that a snapshot was made of**: an id has the last
definition with it; a type has the definitions about it, in the order in which their ids were met
first; and there are the types that have definitions. -/
structure Holds (s : Snapshot) (ds : List Definition) : Prop where
  get? : ∀ id, s.get? id = ds.reverse.find? (·.id = id)
  mem_forType : ∀ t d, d ∈ s.forType t ↔ (∃ id, s.get? id = some d) ∧ t ∈ d.entityTypes
  order : ∀ t, (s.forType t).Pairwise fun a b =>
    (ds.map (·.id)).idxOf a.id < (ds.map (·.id)).idxOf b.id
  mem_entityTypes : ∀ t, t ∈ s.entityTypes ↔ s.forType t ≠ []
  sorted : s.entityTypes.Pairwise (· < ·)
  size : s.size = (ds.map (·.id)).dedup.length

theorem get?_ofDefinitions (ds : List Definition) (id : String) :
    (ofDefinitions ds).get? id = ds.reverse.find? (·.id = id) := by
  have h := Keyed.lookup_ofPairs (ds.map fun d => (d.id, d)) id
  rw [← List.map_reverse, List.find?_map, Option.map_map] at h
  exact h.trans Option.map_id'

theorem get?_eq_some_iff {id : String} : (ofDefinitions ds).get? id = some d ↔
    (id, d) ∈ (ofDefinitions ds).byId :=
  ⟨mem_of_lookup, lookup_of_mem (Keyed.nodup_ofPairs _)⟩

/-- **The two indexes of a snapshot agree.** -/
theorem holds_ofDefinitions (hds : ∀ d ∈ ds, d.entityTypes.Nodup) : (ofDefinitions ds).Holds ds where
  get? := get?_ofDefinitions ds
  mem_forType t d := by
    rw [forType_ofDefinitions hds, List.mem_filter, List.contains_iff_mem, List.mem_map]
    refine and_congr_left fun _ => ⟨fun ⟨e, he, hd⟩ => ?_, fun ⟨id, hid⟩ => ?_⟩
    · exact ⟨e.1, get?_eq_some_iff.mpr (by rw [← hd]; exact he)⟩
    · exact ⟨(id, d), get?_eq_some_iff.mp hid, rfl⟩
  order t := by
    rw [forType_ofDefinitions hds]
    refine List.Pairwise.sublist List.filter_sublist (List.pairwise_map.mpr ?_)
    have hkeys := List.pairwise_map.mp (Keyed.pairwise_keys_ofPairs (ds.map fun d => (d.id, d)))
    rw [List.map_map] at hkeys
    refine hkeys.imp_of_mem fun {a b} ha hb hab => ?_
    rw [(mem_byId_ofDefinitions ha).2, (mem_byId_ofDefinitions hb).2]
    exact hab
  mem_entityTypes t := by
    rw [mem_entityTypes_ofDefinitions, forType_ofDefinitions hds, ne_eq, List.filter_eq_nil_iff]
    simp only [List.contains_iff_mem]
    push Not
    exact Iff.rfl
  sorted := pairwise_entityTypes_ofDefinitions
  size := by
    have hperm : ((ofDefinitions ds).byId.map (·.1)).Perm (ds.map (·.id)).dedup := by
      refine (List.perm_ext_iff_of_nodup (Keyed.nodup_ofPairs _) (List.nodup_dedup _)).mpr ?_
      intro id
      rw [List.mem_dedup]
      refine Keyed.mem_keys_ofPairs.trans ?_
      rw [List.map_map]
      rfl
    have hlength := hperm.length_eq
    rw [List.length_map] at hlength
    exact hlength

end Snapshot
end CatalogRules

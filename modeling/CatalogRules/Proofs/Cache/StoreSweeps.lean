import CatalogRules.Proofs.Cache.Loaded
import CatalogRules.Proofs.Store.Definitions

/-! # Refreshing from the store

A sweep of the store reads all its definitions, page by page, however many are on a page
(`Sweep.run_store`). So a refresh gives the snapshot of the definitions in the store that can be
read (`Cache.run_refresh_store`), and the size of the pages does not show.

What this snapshot holds is told by the history of the definitions (`Snapshot.Reflects`): each id
has the definition that its latest text writes, and definitions about a type are listed in order of
the first puts since the last removals. `Cache.refresh_reads_store` puts this together. -/

namespace CatalogRules

/-- Definitions are served from the store, and there is no outage. -/
structure Platform.ServesStore (p : Platform) : Prop where
  source : p.definitions = .store
  up : ∀ place offset count, p.outages.message? place (.fetchDefinitions offset count) = none

/-- The definitions of a store as they are served. -/
def Store.items (s : Store) : List RawDefinition :=
  s.definitions.map fun e => ⟨e.1, e.2⟩

theorem Run.run_fetchDefinitions_store {p : Platform} (hp : p.ServesStore) (offset count : Nat) :
    (Run.fetchDefinitions offset count).run p =
      (.ok ⟨(p.store.items.drop offset).take count, p.store.items.length⟩,
        { p with calls := p.calls ++ [.fetchDefinitions offset count] }) := by
  have hpage : p.store.definitionPage offset count =
      ⟨(p.store.items.drop offset).take count, p.store.items.length⟩ := by
    simp [Store.definitionPage, Store.items]
  unfold Run.fetchDefinitions
  rw [run_bind, run_call, show p.outage? _ = none from hp.up _ _ _]
  dsimp only
  rw [run_get_bind]
  dsimp only
  rw [hp.source, ← hpage]
  rfl

/-! ### Sweeps -/

namespace Sweep

/-- What a sweep has read with the first items. -/
def ofItems (items : List RawDefinition) (n : Nat) : Sweep := ⟨n, readable (items.take n)⟩

theorem offset_ofItems (items : List RawDefinition) (n : Nat) : (ofItems items n).offset = n := rfl

/-- The next page brings the sweep as many items further as there are on it. -/
theorem take_ofItems (items : List RawDefinition) {n : Nat} (hn : n ≤ items.length)
    (count total : Nat) : (ofItems items n).take ⟨(items.drop n).take count, total⟩ =
      ofItems items (min (n + count) items.length) := by
  have hlength : n + ((items.drop n).take count).length = min (n + count) items.length := by
    rw [List.length_take, List.length_drop]
    omega
  have htake : items.take n ++ (items.drop n).take count =
      items.take (min (n + count) items.length) := by
    rw [← List.take_add, List.take_eq_take_min]
  unfold ofItems Sweep.take
  rw [hlength, readable, readable, readable, ← List.filterMap_append, htake]

/-- **A sweep goes on to the end of the store.** The induction is on the bound on the number of pages,
which is large enough because each page but the last one has an item. -/
theorem run_within_store (pageSize : Nat) (hpos : 0 < pageSize) : ∀ (fuel n : Nat) {p : Platform},
    p.ServesStore → n ≤ p.store.items.length → p.store.items.length < n + fuel →
    ∃ log, (within pageSize fuel (ofItems p.store.items n)).run p =
      (.ok (ofItems p.store.items p.store.items.length), { p with calls := p.calls ++ log })
  | 0, n, _, _, hn, hfuel => by omega
  | fuel + 1, n, p, hp, hn, hfuel => by
    have hnext : min (n + pageSize) p.store.items.length ≤ p.store.items.length :=
      Nat.min_le_right _ _
    unfold within
    rw [Run.run_bind, Run.run_fetchDefinitions_store hp]
    dsimp only
    rw [offset_ofItems, take_ofItems _ hn]
    split_ifs with hdone
    · rw [isDone, Bool.or_eq_true, List.isEmpty_iff, decide_eq_true_eq] at hdone
      have hend : min (n + pageSize) p.store.items.length = p.store.items.length := by
        rcases hdone with hempty | hall
        · -- an empty page is behind the last item
          have hlength := congrArg List.length hempty
          rw [List.length_take, List.length_drop, List.length_nil] at hlength
          omega
        · exact le_antisymm hnext hall
      rw [hend]
      exact ⟨_, rfl⟩
    · rw [isDone, Bool.or_eq_true, not_or, decide_eq_true_eq] at hdone
      have hmore : min (n + pageSize) p.store.items.length < p.store.items.length :=
        Nat.not_le.mp hdone.2
      obtain ⟨log, hlog⟩ := run_within_store pageSize hpos fuel
        (min (n + pageSize) p.store.items.length)
        (p := { p with calls := p.calls ++ [.fetchDefinitions n pageSize] })
        ⟨hp.source, hp.up⟩ hnext (by dsimp only; omega)
      refine ⟨[.fetchDefinitions n pageSize] ++ log, hlog.trans ?_⟩
      simp only [List.append_assoc]

theorem run_store {p : Platform} (hp : p.ServesStore) {pageSize : Nat} (hpos : 0 < pageSize) :
    ∃ log, (run pageSize).run p = (.ok ⟨p.store.items.length, readable p.store.items⟩,
      { p with calls := p.calls ++ log }) := by
  obtain ⟨log, hlog⟩ := run_within_store pageSize hpos (p.store.definitions.length + 1) 0 hp
    (Nat.zero_le _) (by simp [Store.items])
  have hpages : pagesLeft p = p.store.definitions.length + 1 := by rw [pagesLeft, hp.source]
  have hall : ofItems p.store.items p.store.items.length =
      ⟨p.store.items.length, readable p.store.items⟩ := by rw [ofItems, List.take_length]
  refine ⟨log, ?_⟩
  unfold run
  rw [Run.run_get_bind, hpages, ← hall]
  exact hlog

end Sweep

/-- **A refresh gives the snapshot of the store, whatever the size of the pages.** -/
theorem Cache.run_refresh_store (c : Cache) (hpos : 0 < c.pageSize) {p : Platform}
    (hp : p.ServesStore) :
    let s := Snapshot.ofDefinitions (Sweep.readable p.store.items)
    (c.refresh.run p).1 = (.ok s.size, { c with snapshot := s }) := by
  intro s
  obtain ⟨log, hlog⟩ := Sweep.run_store hp hpos
  have hload : ∃ q, (load c.pageSize).run p = (.ok s, q) := by
    unfold load
    rw [Run.run_bind, Run.run_tryCatch, hlog]
    exact ⟨_, rfl⟩
  obtain ⟨q, hq⟩ := hload
  unfold refresh
  simp only [StateT.run, bind, StateT.bind]
  rw [hq]
  rfl

/-! ### What the snapshot holds -/

namespace Snapshot

/-- **A snapshot reflects a history of edits**: an id has the definition that its latest text writes, if
it is present and the text can be read; definitions about a type are listed in order of the first
puts since the last removals; and the size is the number of ids. -/
structure Reflects (s : Snapshot) (edits : List DefinitionEdit) : Prop where
  get? : ∀ id d, s.get? id = some d ↔
    ∃ text, latest? edits id = some text ∧ Definition.read id text = .ok d
  mem_forType : ∀ t d, d ∈ s.forType t ↔ s.get? d.id = some d ∧ t ∈ d.entityTypes
  order : ∀ t, (s.forType t).Pairwise fun a b => PutBefore edits a.id b.id
  size : ∃ ids : List String, ids.Nodup ∧ (∀ id, id ∈ ids ↔ (s.get? id).isSome) ∧
    s.size = ids.length

end Snapshot

namespace Store

variable {s : Store} {edits : List DefinitionEdit}

theorem mem_readable_items {d : Definition} : d ∈ Sweep.readable s.items ↔
    ∃ text, (d.id, text) ∈ s.definitions ∧ Definition.read d.id text = .ok d := by
  simp only [Sweep.readable, items, List.mem_filterMap, List.mem_map, toOption_eq_some]
  constructor
  · rintro ⟨raw, ⟨e, he, rfl⟩, hread⟩
    obtain ⟨hid, -⟩ := Definition.accepted_read hread
    rw [hid]
    exact ⟨e.2, he, hread⟩
  · rintro ⟨text, he, hread⟩
    exact ⟨_, ⟨_, he, rfl⟩, hread⟩

/-- The ids of the definitions that can be read stand in the order of the store. -/
theorem ids_readable_sublist (s : Store) :
    ((Sweep.readable s.items).map (·.id)).Sublist (s.definitions.map (·.1)) := by
  unfold items Sweep.readable
  induction s.definitions with
  | nil => exact List.Sublist.slnil
  | cons e rest ih =>
    rw [List.map_cons, List.map_cons]
    cases hread : Definition.read e.1 e.2 with
    | error fault =>
      rw [List.filterMap_cons_none (by rw [hread]; rfl)]
      exact ih.cons _
    | ok d =>
      rw [List.filterMap_cons_some (by rw [hread]; rfl), List.map_cons,
        (Definition.accepted_read hread).1]
      exact ih.cons_cons _

/-- A relation between the elements of a list in their order holds along their places. -/
theorem of_idxOf_lt {r : String → String → Prop} {ids : List String} (h : ids.Pairwise r)
    {a b : String} (hb : b ∈ ids) (hlt : ids.idxOf a < ids.idxOf b) : r a b := by
  have hb' := List.idxOf_lt_length_of_mem hb
  have hr := List.pairwise_iff_getElem.mp h _ _ (hlt.trans hb') hb' hlt
  rwa [List.getElem_idxOf, List.getElem_idxOf] at hr

/-- Among definitions with distinct ids, the one of an id is found. -/
theorem find?_id_eq_some {ds : List Definition} (hn : (ds.map (·.id)).Nodup) {id : String}
    {d : Definition} : ds.reverse.find? (·.id = id) = some d ↔ d ∈ ds ∧ d.id = id := by
  constructor
  · intro h
    exact ⟨List.mem_reverse.mp (List.mem_of_find?_eq_some h), by simpa using List.find?_some h⟩
  · rintro ⟨hd, rfl⟩
    cases hfind : ds.reverse.find? (·.id = d.id) with
    | none =>
      exact absurd (decide_eq_true rfl) (List.find?_eq_none.mp hfind d (List.mem_reverse.mpr hd))
    | some d' =>
      have hd' := List.mem_reverse.mp (List.mem_of_find?_eq_some hfind)
      have hid : d'.id = d.id := by simpa using List.find?_some hfind
      rw [List.inj_on_of_nodup_map hn hd' hd hid]

/-- **The snapshot of a store reflects the history of its definitions.** -/
theorem reflects (h : s.CameBy edits) :
    (Snapshot.ofDefinitions (Sweep.readable s.items)).Reflects edits := by
  have hlisted := h.listed
  have hholds := Snapshot.holds_readable s.items
  have hsub := s.ids_readable_sublist
  have hfind {id : String} {d : Definition} :
      (Snapshot.ofDefinitions (Sweep.readable s.items)).get? id = some d ↔
        d ∈ Sweep.readable s.items ∧ d.id = id := by
    rw [hholds.get?]
    exact find?_id_eq_some (hlisted.unique.sublist hsub)
  refine ⟨fun id d => ?_, fun t d => ?_, fun t => ?_, ?_⟩
  · have htext (text : String) : (id, text) ∈ s.definitions ↔ latest? edits id = some text := by
      rw [← hlisted.lookup]
      exact ⟨lookup_of_mem hlisted.unique, mem_of_lookup⟩
    rw [hfind, mem_readable_items]
    constructor
    · rintro ⟨⟨text, he, hread⟩, rfl⟩
      exact ⟨text, (htext text).mp he, hread⟩
    · rintro ⟨text, he, hread⟩
      obtain rfl := (Definition.accepted_read hread).1
      exact ⟨⟨text, (htext text).mpr he, hread⟩, rfl⟩
  · rw [hholds.mem_forType]
    refine and_congr_left fun _ => ⟨fun ⟨id, hd⟩ => ?_, fun hd => ⟨_, hd⟩⟩
    rw [(hfind.mp hd).2]
    exact hd
  · refine (hholds.order t).imp_of_mem fun {a b} _ hb hab => ?_
    obtain ⟨⟨id, hid⟩, -⟩ := (hholds.mem_forType t b).mp hb
    exact of_idxOf_lt (hlisted.order.sublist hsub) (List.mem_map_of_mem (hfind.mp hid).1) hab
  · refine ⟨((Sweep.readable s.items).map (·.id)).dedup, List.nodup_dedup _, fun id => ?_,
      hholds.size⟩
    rw [List.mem_dedup, Option.isSome_iff_exists, List.mem_map]
    simp only [hfind]

end Store

/-- **A refresh loses nothing.** However the definitions of the store came about, each id is there at
most once, with its latest text; and a refresh, with pages of any size, gives one and the same
snapshot, which reflects the history of the definitions, and the number of its ids. -/
theorem Cache.refresh_reads_store {s : Store} {edits : List DefinitionEdit} (h : s.CameBy edits)
    (p : Platform) (hp : p.ServesStore) (hstore : p.store = s) :
    ((s.definitions.map (·.1)).Nodup ∧ ∀ id, s.definitions.lookup id = latest? edits id) ∧
    ∃ snapshot : Snapshot, snapshot.Reflects edits ∧ ∀ (pageSize : Nat) (old : Snapshot),
      let c : Cache := { ofPageSize pageSize with snapshot := old }
      (c.refresh.run p).1 = (.ok snapshot.size, { c with snapshot := snapshot }) := by
  subst hstore
  refine ⟨⟨h.listed.unique, h.listed.lookup⟩, _, Store.reflects h, ?_⟩
  intro pageSize old c
  exact run_refresh_store c (lt_of_lt_of_le Nat.zero_lt_one (Nat.le_max_right _ _)) hp

theorem Cache.refresh_returning :
    let text := "\x7b\"on\": \x7b\"types\": [\"thing\"]\x7d, \"rules\":
      \x7b\"property\": \"urn\", \"operator\": \"exists\"\x7d\x7d"
    let s := (((Store.empty.putDefinition "gone" text).putDefinition "late" text).removeDefinition
      "gone").putDefinition "gone" text
    let edits : List DefinitionEdit :=
      [.put "gone" text, .put "late" text, .remove "gone", .put "gone" text]
    let p := Platform.ofStore s [] 0
    s.CameBy edits ∧ p.ServesStore ∧ p.store = s ∧ ∃ snapshot : Snapshot,
      snapshot.Reflects edits ∧ ((ofPageSize 0).refresh.run p).1.2.snapshot = snapshot ∧
        (snapshot.forType "thing").map (·.id) = ["late", "gone"] := by
  intro text s edits p
  have hs : s.CameBy edits := (((Store.CameBy.empty.put _ _).put _ _).remove _).put _ _
  have hp : p.ServesStore := ⟨rfl, fun _ _ _ => rfl⟩
  obtain ⟨-, snapshot, hreflects, hrefresh⟩ := refresh_reads_store hs p hp rfl
  have hsnapshot : ((ofPageSize 0).refresh.run p).1.2.snapshot = snapshot :=
    congrArg (·.2.snapshot) (hrefresh 0 .empty)
  refine ⟨hs, hp, rfl, snapshot, hreflects, hsnapshot, ?_⟩
  rw [← hsnapshot]
  decide +kernel

end CatalogRules

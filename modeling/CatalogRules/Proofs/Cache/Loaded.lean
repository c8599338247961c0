import CatalogRules.Cache.Refresher
import CatalogRules.Proofs.Cache.Indexes
import CatalogRules.Proofs.Definition.Accepted
import CatalogRules.Proofs.Keeping

/-! # Snapshots that a cache holds

A loaded snapshot is made of the definitions that can be read among some items (`Snapshot.Loaded`):
each definition stands under its id, and its predicates are accepted. A cache
begins with a loaded snapshot (`loaded_empty`) and every refresh, whether it fails or not, leaves
one in it and the store as it was (`Cache.refresh_loaded`). -/

namespace CatalogRules

/-! ### Loaded snapshots -/

namespace Snapshot

/-- The snapshot is made of the definitions that can be read among some items. -/
def Loaded (s : Snapshot) : Prop :=
  ∃ items, s = ofDefinitions (Sweep.readable items)

variable {s : Snapshot} {id : String} {d : Definition}

theorem loaded_empty : empty.Loaded := ⟨[], rfl⟩

theorem accepted_of_mem_readable {items : List RawDefinition} (h : d ∈ Sweep.readable items) :
    d.Accepted := by
  obtain ⟨raw, -, hraw⟩ := List.mem_filterMap.mp h
  cases hd : Definition.read raw.id raw.text with
  | error e =>
    rw [hd] at hraw
    cases hraw
  | ok d' =>
    rw [hd] at hraw
    cases hraw
    exact (Definition.accepted_read hd).2

/-- The types of a definition that was read do not repeat, so both indexes hold it once. -/
theorem holds_readable (items : List RawDefinition) :
    (ofDefinitions (Sweep.readable items)).Holds (Sweep.readable items) :=
  holds_ofDefinitions fun _ hd => Sorted.nodup_of_pairwise (accepted_of_mem_readable hd).types

namespace Loaded

theorem holds (h : s.Loaded) : ∃ ds, s.Holds ds ∧ ∀ d ∈ ds, d.Accepted := by
  obtain ⟨items, rfl⟩ := h
  exact ⟨_, holds_readable items, fun _ => accepted_of_mem_readable⟩

/-- A definition is found under its id, and its predicates are accepted. -/
theorem of_get? (h : s.Loaded) (hd : s.get? id = some d) : d.id = id ∧ d.Accepted := by
  obtain ⟨ds, hs, hds⟩ := h.holds
  rw [hs.get?] at hd
  refine ⟨by simpa using List.find?_some hd, hds d ?_⟩
  exact List.mem_reverse.mp (List.mem_of_find?_eq_some hd)

/-- A definition about some type is found under its id. -/
theorem get?_of_mem (h : s.Loaded) {t : String} (hd : d ∈ s.forType t) : s.get? d.id = some d := by
  obtain ⟨ds, hs, -⟩ := h.holds
  obtain ⟨⟨id, hid⟩, -⟩ := (hs.mem_forType t d).mp hd
  rw [(h.of_get? hid).1]
  exact hid

theorem accepted (h : s.Loaded) {t : String} (hd : d ∈ s.forType t) : d.Accepted :=
  (h.of_get? (h.get?_of_mem hd)).2

/-- No two definitions about a type have one id. -/
theorem nodup_forType (h : s.Loaded) (t : String) : ((s.forType t).map (·.id)).Nodup := by
  obtain ⟨ds, hs, -⟩ := h.holds
  refine List.pairwise_map.mpr ((hs.order t).imp fun {a b} hab heq => ?_)
  rw [heq] at hab
  exact absurd hab (lt_irrefl _)

theorem has_of_mem (h : s.Loaded) {t : String} (hd : d ∈ s.forType t) : s.has d.id := by
  rw [has, h.get?_of_mem hd]
  rfl

end Loaded
end Snapshot

/-! ### Refreshing -/

/-- A sweep finds the definitions that can be read among the items so far. -/
def Sweep.Sound (s : Sweep) : Prop := ∃ items, s.found = readable items

theorem Sweep.Sound.take {s : Sweep} (h : s.Sound) (page : DefinitionPage) :
    (s.take page).Sound := by
  obtain ⟨items, hitems⟩ := h
  exact ⟨items ++ page.items, by simp [Sweep.take, hitems, readable]⟩

theorem Sweep.keeps_within (pageSize : Nat) : ∀ (fuel : Nat) {s : Sweep}, s.Sound →
    Run.Keeps id (within pageSize fuel s) Sound
  | 0, _, h => .pure h
  | fuel + 1, s, h => by
    unfold within
    refine (Run.Keeps.fetchDefinitions _ _).bind fun page _ => ?_
    dsimp only
    split_ifs
    · exact .pure (h.take page)
    · exact keeps_within pageSize fuel (h.take page)

theorem Cache.keeps_load (pageSize : Nat) : Run.Keeps id (load pageSize) Snapshot.Loaded := by
  have hrun : Run.Keeps id (Sweep.run pageSize) Sweep.Sound := fun p =>
    Sweep.keeps_within pageSize (Sweep.pagesLeft p) (s := .start) ⟨[], rfl⟩ p
  unfold load
  refine (hrun.tryCatch fun e => ?_).bind fun sweep hsweep => ?_
  · exact (Run.Keeps.count _).bind fun _ _ => .throw e
  · refine (Run.Keeps.count _).bind fun _ _ => ?_
    refine (Run.Keeps.gauge _ _).bind fun _ _ => .pure ?_
    obtain ⟨items, hitems⟩ := hsweep
    exact ⟨items, by rw [hitems]⟩

/-- **A refresh leaves a loaded snapshot in the cache and the store as it was.** -/
theorem Cache.refresh_loaded {c : Cache} (h : c.snapshot.Loaded) (p : Platform) :
    (c.refresh.run p).1.2.snapshot.Loaded ∧ (c.refresh.run p).2.store = p.store := by
  obtain ⟨hs, hP⟩ := keeps_load c.pageSize p
  unfold refresh
  simp only [StateT.run, Bind.bind, StateT.bind]
  rcases hl : (load c.pageSize).run p with ⟨e | s, q⟩
  · rw [hl] at hs
    exact ⟨h, hs⟩
  · rw [hl] at hs hP
    exact ⟨hP s rfl, hs⟩

namespace Refresher

/-- What becomes of a refresher: its snapshot is loaded, and the store is left as it was. -/
def Refreshes (x : StateM Platform Refresher) : Prop :=
  ∀ p, (x.run p).1.cache.snapshot.Loaded ∧ (x.run p).2.store = p.store

theorem Refreshes.bind {r : Refresher} (h : r.cache.snapshot.Loaded) {f : Refresher → Refresher}
    (hf : ∀ r, (f r).cache = r.cache) {g : Refresher → StateM Platform Refresher}
    (hg : ∀ r, r.cache.snapshot.Loaded → Refreshes (g r)) :
    Refreshes (do let (_, r) ← r.refresh; g (f r)) := by
  intro p
  obtain ⟨hl, hs⟩ := Cache.refresh_loaded h p
  show ((g (f { r with cache := (r.cache.refresh.run p).1.2 })).run
    (r.cache.refresh.run p).2).1.cache.snapshot.Loaded ∧ _
  obtain ⟨hl', hs'⟩ := hg (f { r with cache := (r.cache.refresh.run p).1.2 })
    (by rw [hf]; exact hl) (r.cache.refresh.run p).2
  exact ⟨hl', hs'.trans hs⟩

theorem waitWithin_loaded (stop : Nat) : ∀ (fuel : Nat) {r : Refresher},
    r.cache.snapshot.Loaded → Refreshes (waitWithin stop fuel r)
  | 0, _, h => fun _ => ⟨h, rfl⟩
  | fuel + 1, r, h => by
    unfold waitWithin
    split
    · exact fun _ => ⟨h, rfl⟩
    · next s hs =>
      split_ifs
      · exact Refreshes.bind h
          (f := fun r =>
            { r with clock := s.due, schedule := some ⟨s.interval, s.due + s.interval⟩ })
          (fun _ => rfl) fun r hr => waitWithin_loaded stop fuel hr
      · exact fun _ => ⟨h, rfl⟩

/-- **Waiting leaves a loaded snapshot in the cache, however many refreshes fall due.** -/
theorem wait_loaded {r : Refresher} (h : r.cache.snapshot.Loaded) (ms : Nat) :
    Refreshes (r.wait ms) := by
  unfold wait
  exact waitWithin_loaded _ _ h

theorem invalidate_loaded {r : Refresher} (h : r.cache.snapshot.Loaded) :
    Refreshes r.invalidate := by
  unfold invalidate
  split
  · exact wait_loaded h _
  · next s hs =>
    exact Refreshes.bind h
      (f := fun r => { r with schedule := some ⟨s.interval, r.clock + s.interval⟩ })
      (fun _ => rfl) fun r hr => wait_loaded hr _

end Refresher
end CatalogRules

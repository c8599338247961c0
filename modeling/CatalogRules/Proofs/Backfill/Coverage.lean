import CatalogRules.Proofs.Backfill.Reading
import CatalogRules.Proofs.Resolution.Realized
import Mathlib.Algebra.Ring.Nat

/-! # What a backfill covers

`Backfill.entries` is the course of a backfill through a type, batch by batch with the answers; the
report counts what is in it (`Engine.backfill_eq`). By the invariant of `Progress` the batches of a
type are the pages of its listing, up to the first search that is out, whatever becomes of their
evaluations, and by `upkeeps_run` the listing is the same throughout (`run_entries`). No type is
affected by what happens with another one (`run_types`). -/

namespace CatalogRules
namespace Backfill

/-- A batch and the answer to it: the number of its entities, or a failure. -/
abbrev Entry := Batch × Except Failure Nat

/-- The entities of a batch that succeeded. -/
def entitiesOf (x : Entry) : Nat := x.2.toOption.getD 0

/-- A batch failed, be it that it could not be read or not be evaluated. -/
def failed (x : Entry) : Bool := x.2.toOption.isNone

/-- The batches of a type from some point on, with the answers. -/
def entries (e : Engine) (mode : Mode) (limits : BackfillLimits) (t : String) :
    Nat → Scroll → StateM Platform (List Entry)
  | 0, _ => return []
  | fuel + 1, s => do
    let s ← s.readAhead t limits.batchSize (limits.concurrency - s.waiting.length)
    match s.waiting with
    | [] => return []
    | b :: rest => do
      let answer ← (evaluateBatch e mode b).run
      return (b, answer) :: (← entries e mode limits t fuel ⟨s.next, rest⟩)

/-- The batches of a type, with the answers. -/
def typeEntries (e : Engine) (mode : Mode) (limits : BackfillLimits) (t : String) :
    StateM Platform (String × List Entry) := do
  return (t, ← entries e mode limits t (pagesLeft (← get) t) .start)

/-- The batches of all types, with the answers. -/
def allEntries (e : Engine) (mode : Mode) (limits : BackfillLimits) :
    StateM Platform (List (String × List Entry)) :=
  e.entityTypes.mapM (typeEntries e mode limits)

/-! ### The report -/

/-- The report with some further batches. -/
def tallied (report : BackfillReport) (xs : List Entry) : BackfillReport :=
  xs.foldl (fun report x => tally report x.2) report

theorem tallied_eq (xs : List Entry) (report : BackfillReport) : tallied report xs =
    ⟨report.entityTypes, report.batches + xs.length, report.entities + (xs.map entitiesOf).sum,
      report.failedBatches + xs.countP failed⟩ := by
  induction xs generalizing report with
  | nil => rfl
  | cons x xs ih =>
    obtain ⟨b, answer⟩ := x
    show tallied (tally report answer) xs = _
    rw [ih]
    cases answer <;>
      simp [tally, entitiesOf, failed, Except.toOption, List.countP_cons] <;> omega

variable {e : Engine} {mode : Mode} {limits : BackfillLimits} {t : String}

theorem drain_eq : ∀ (fuel : Nat) (s : Scroll) (report : BackfillReport),
    drain e mode limits t fuel s report = tallied report <$> entries e mode limits t fuel s
  | 0, _, _ => rfl
  | fuel + 1, s, report => by
    unfold drain entries
    rw [map_bind]
    refine bind_congr fun s => ?_
    cases s.waiting with
    | nil => rfl
    | cons b rest =>
      simp only [map_bind, drain_eq fuel, map_pure]
      rfl

theorem scanType_eq (report : BackfillReport) : scanType e mode limits report t =
    (fun x => tallied report x.2) <$> typeEntries e mode limits t := by
  unfold scanType typeEntries
  simp only [drain_eq, map_bind, map_pure]
  rfl

end Backfill

open Backfill in
/-- **The report counts the batches of all types.** -/
theorem Engine.backfill_eq (e : Engine) (mode : Mode) (limits : BackfillLimits) :
    e.backfill mode limits =
      (fun all => tallied ⟨e.entityTypes, 0, 0, 0⟩ (all.flatMap (·.2))) <$>
        allEntries e mode limits := by
  have h : ∀ (ts : List String) (report : BackfillReport),
      ts.foldlM (scanType e mode limits) report =
        (fun all => tallied report (all.flatMap (·.2))) <$>
          ts.mapM (typeEntries e mode limits) := by
    intro ts
    induction ts with
    | nil => exact fun report => rfl
    | cons t ts ih =>
      intro report
      simp only [List.foldlM_cons, List.mapM_cons, scanType_eq, ih, bind_map_left, map_bind,
        map_pure]
      refine bind_congr fun x => ?_
      simp only [map_eq_pure_bind, List.flatMap_cons, tallied, List.foldl_append]
  exact h _ _

namespace Backfill

variable {e : Engine} {mode : Mode} {limits : BackfillLimits} {t : String} {p q : Platform}

/-! ### One type -/

/-- The answer to a batch: its own failure, or what comes of its evaluation on a platform on which
the same calls fail. -/
def Answered (e : Engine) (mode : Mode) (outages : Outages) : Entry → Prop
  | (.error f, answer) => answer = .error f
  | (.ok us, answer) => ∃ o : Platform, o.outages = outages ∧
      answer = ((e.evaluate .all mode us).run o).1.map fun _ => us.length

/-- A batch is evaluated as it is. -/
theorem evaluateBatch_ok {us : List Urn} (hus : us.Pairwise (· < ·)) :
    evaluateBatch e mode (.ok us) = (fun _ => us.length) <$> e.evaluate .all mode us := by
  unfold evaluateBatch
  simp only [Sorted.ofList_self hus, map_eq_pure_bind]

theorem run_map {α β : Type} (f : α → β) (x : Run α) (p : Platform) :
    (f <$> x).run p = ((x.run p).1.map f, (x.run p).2) := by
  rw [map_eq_pure_bind, Run.run_bind]
  rcases x.run p with ⟨_ | _, q⟩ <;> rfl

/-- The names on a page of a listing that is in order. -/
theorem mem_pages {size : Nat} {s : Store} {us : List Urn} (hs : s.names.Pairwise (· < ·))
    (hus : us ∈ pages size (s.urns t)) : us ⊆ s.names ∧ us.Pairwise (· < ·) := by
  obtain ⟨i, -, rfl⟩ := List.mem_map.mp hus
  have hsub : (((s.urns t).drop (i * size)).take size).Sublist s.names :=
    ((List.take_sublist _ _).trans (List.drop_sublist _ _)).trans List.filter_sublist
  exact ⟨hsub.subset, hs.sublist hsub⟩

variable (e mode) in
/-- **Evaluating a batch leaves the listing**, whether it succeeds or fails. -/
theorem upkept_evaluateBatch {size : Nat} {b : Batch} (hq : q.store.names.Pairwise (· < ·))
    (hb : ∀ us, b = .ok us → us ∈ pages size (q.store.urns t)) :
    q.Upkept (·.sort ≠ .scroll) ((evaluateBatch e mode b).run q).2 ∧
      Answered e mode q.outages (b, ((evaluateBatch e mode b).run q).1) := by
  cases b with
  | error f => exact ⟨.refl _ q, rfl⟩
  | ok us =>
    obtain ⟨hsub, hsorted⟩ := mem_pages hq (hb us rfl)
    rw [evaluateBatch_ok hsorted, run_map]
    exact ⟨(Evaluation.upkeeps_run _ _ _ mode hq hsub q rfl).1, q, rfl, rfl⟩

theorem run_entries_succ (fuel : Nat) (s : Scroll) (q : Platform) :
    (entries e mode limits t (fuel + 1) s).run q =
      let r := (s.readAhead t limits.batchSize (limits.concurrency - s.waiting.length)).run q
      match r.1.waiting with
      | [] => ([], r.2)
      | b :: rest =>
        let x := (evaluateBatch e mode b).run r.2
        let y := (entries e mode limits t fuel ⟨r.1.next, rest⟩).run x.2
        ((b, x.1) :: y.1, y.2) := by
  show entries e mode limits t (fuel + 1) s q = _
  rw [entries]
  simp only [bind, StateT.bind]
  rw [show (s.readAhead t limits.batchSize (limits.concurrency - s.waiting.length)) q =
    (s.readAhead t limits.batchSize (limits.concurrency - s.waiting.length)).run q from rfl]
  rcases (s.readAhead t limits.batchSize (limits.concurrency - s.waiting.length)).run q with
    ⟨⟨next, _ | ⟨b, rest⟩⟩, o⟩ <;> rfl

/-- **The run through a type covers it.** The fuel is enough for the batches that are left: there
are no more batches than pages, and the failure of a search. -/
theorem run_entries (hconc : 0 < limits.concurrency) (hp : p.store.names.Pairwise (· < ·)) :
    ∀ (fuel : Nat) (handed : List Batch) {s : Scroll} {q : Platform},
    Searchable limits.batchSize q → p.Upkept (fun c => c.sort = .scroll → c.subject = t) q →
    Progress limits.batchSize t p q s.next (handed ++ s.waiting) →
    (pages limits.batchSize (p.store.urns t)).length + 1 < fuel + handed.length →
    let r := (entries e mode limits t fuel s).run q
    p.Upkept (fun c => c.sort = .scroll → c.subject = t) r.2 ∧
      Covers limits.batchSize t p r.2 (handed ++ r.1.map (·.1)) ∧
      ∀ x ∈ r.1, Answered e mode p.outages x
  | 0, handed, s, q, _, _, h, hfuel => by
    have hle := h.length_le
    rw [List.length_append] at hle
    omega
  | fuel + 1, handed, s, q, hq, hup, h, hfuel => by
    obtain ⟨hread, hfull⟩ := Progress.readAhead (limits.concurrency - s.waiting.length) hq
      hup.names hup.length_le h
    rw [run_entries_succ]
    generalize (s.readAhead t limits.batchSize (limits.concurrency - s.waiting.length)).run q = r
      at hread hfull
    obtain ⟨⟨next, waiting⟩, o⟩ := r
    obtain ⟨hupo, hprogress⟩ := hread
    have hpo : p.Upkept (fun c => c.sort = .scroll → c.subject = t) o :=
      hup.trans (hupo.mono fun _ hc _ => hc)
    cases waiting with
    | nil =>
      -- nothing waits although there is room, so reading is over
      have hended : next = none := hfull.resolve_right (by
        simp only [List.length_nil]
        omega)
      subst hended
      refine ⟨hpo, ?_, by simp⟩
      cases hprogress with
      | done covers => exact covers
    | cons b rest =>
      have hb : ∀ us, b = .ok us → us ∈ pages limits.batchSize (o.store.urns t) := by
        rintro us rfl
        rw [Store.urns_eq_of_names hpo.names t]
        exact hprogress.mem_pages (by simp)
      have hsorted : o.store.names.Pairwise (· < ·) := by
        rw [hpo.names]
        exact hp
      obtain ⟨hupx, hanswered⟩ := upkept_evaluateBatch e mode hsorted hb
      dsimp only
      generalize (evaluateBatch e mode b).run o = x at hupx hanswered
      obtain ⟨answer, o'⟩ := x
      have hquiet : o.Upkept (fun c => c.sort = .scroll → c.subject ≠ t) o' :=
        hupx.mono fun _ hc hsort => absurd hsort hc
      have hpo' : p.Upkept (fun c => c.sort = .scroll → c.subject = t) o' :=
        hpo.trans (hupx.mono fun _ hc hsort => absurd hsort hc)
      have hnext : Progress limits.batchSize t p o' next ((handed ++ [b]) ++ rest) := by
        rw [List.append_assoc]
        exact hprogress.later hquiet
      obtain ⟨hupr, hcovers, hall⟩ := run_entries hconc hp fuel (handed ++ [b]) (s := ⟨next, rest⟩)
        ((hq.upkept hupo).upkept hupx) hpo' hnext (by
          rw [List.length_append, List.length_singleton]
          omega)
      refine ⟨hupr, ?_, ?_⟩
      · rwa [List.append_assoc] at hcovers
      · intro x hx
        rcases List.mem_cons.mp hx with rfl | hx
        · rw [← hpo.outages]
          exact hanswered
        · exact hall x hx

variable (e mode) in
theorem run_typeEntries (hconc : 0 < limits.concurrency) (hp : p.store.names.Pairwise (· < ·))
    (hs : Searchable limits.batchSize p) (t : String) :
    let r := (typeEntries e mode limits t).run p
    r.1.1 = t ∧ p.Upkept (fun c => c.sort = .scroll → c.subject = t) r.2 ∧
      Covers limits.batchSize t p r.2 (r.1.2.map (·.1)) ∧
      ∀ x ∈ r.1.2, Answered e mode p.outages x := by
  have hleft : pagesLeft p t = (p.store.urns t).length + 2 := by
    unfold pagesLeft
    rw [hs.searches]
    rfl
  have hbound : (pages limits.batchSize (p.store.urns t)).length + 1 <
      pagesLeft p t + ([] : List Batch).length := by
    rw [hleft, length_pages, List.length_nil]
    have := pageCount_le (n := (p.store.urns t).length) hs.pos
    omega
  have hclear : Clear t p p p.calls.length := fun n c hn hlt => absurd hlt (Nat.not_lt.mpr hn)
  exact ⟨rfl, run_entries hconc hp (pagesLeft p t) [] hs (.refl _ p)
    (.reading 0 (.inl rfl) hclear) hbound⟩

/-! ### All types -/

/-- The course of a backfill through some types. -/
structure Surveys (e : Engine) (mode : Mode) (size : Nat) (ts : List String) (p : Platform)
    (r : List (String × List Entry) × Platform) : Prop where
  upkept : p.Upkept (fun c => c.sort = .scroll → c.subject ∈ ts) r.2
  types : r.1.map (·.1) = ts
  covers : ∀ x ∈ r.1, Covers size x.1 p r.2 (x.2.map (·.1))
  answered : ∀ x ∈ r.1, ∀ y ∈ x.2, Answered e mode p.outages y

/-- **What happens with one type does not matter for another one.** -/
theorem run_types (hconc : 0 < limits.concurrency) : ∀ (ts : List String) {p : Platform},
    ts.Nodup → p.store.names.Pairwise (· < ·) → Searchable limits.batchSize p →
    Surveys e mode limits.batchSize ts p ((ts.mapM (typeEntries e mode limits)).run p)
  | [], p, _, _, _ => ⟨.refl _ p, rfl, fun _ hx => absurd hx List.not_mem_nil,
      fun _ hx => absurd hx List.not_mem_nil⟩
  | t :: ts, p, hnodup, hp, hs => by
    obtain ⟨ht, hts⟩ := List.nodup_cons.mp hnodup
    obtain ⟨htype, hup, hcovers, hanswered⟩ :=
      run_typeEntries e mode hconc hp hs t
    rw [List.mapM_cons]
    show Surveys e mode limits.batchSize (t :: ts) p
      (let r := (typeEntries e mode limits t).run p
        let rest := (ts.mapM (typeEntries e mode limits)).run r.2
        (r.1 :: rest.1, rest.2))
    generalize (typeEntries e mode limits t).run p = r at htype hup hcovers hanswered
    obtain ⟨⟨_, xs⟩, o⟩ := r
    subst htype
    have hrest := run_types hconc ts hts (by rw [hup.names]; exact hp) (hs.upkept hup)
    dsimp only
    generalize (ts.mapM (typeEntries e mode limits)).run o = rest at hrest
    refine ⟨?_, by rw [List.map_cons, hrest.types], ?_, ?_⟩
    · exact (hup.mono fun c hc hsort => by simp [hc hsort]).trans
        (hrest.upkept.mono fun c hc hsort => List.mem_cons_of_mem _ (hc hsort))
    · intro x hx
      rcases List.mem_cons.mp hx with rfl | hx
      · refine hcovers.later (hrest.upkept.mono fun c hc hsort hsubject => ht ?_)
        rw [← hsubject]
        exact hc hsort
      · refine (hrest.covers x hx).earlier (hup.mono fun c hc hsort hsubject => ht ?_) hrest.upkept
        rw [← hc hsort, hsubject, ← hrest.types]
        exact List.mem_map_of_mem hx
    · intro x hx
      rcases List.mem_cons.mp hx with rfl | hx
      · exact hanswered
      · rw [← hup.outages]
        exact hrest.answered x hx

/-! ### Without failures -/

/-- What was handed out of a type if nothing is out: its pages, each of which was evaluated. -/
theorem entries_eq_of_answered {size : Nat} {xs : List Entry}
    (hcovers : Covers size t p q (xs.map (·.1))) (hout : q.outages = [])
    (hxs : ∀ y ∈ xs, y.2 = y.1.map List.length) :
    xs = (pages size (p.store.urns t)).map fun us => (.ok us, .ok us.length) := by
  generalize hbs : xs.map (·.1) = bs at hcovers
  cases hcovers with
  | cut k n message page place clear call out =>
    rw [hout] at out
    cases out
  | complete clear =>
    have hself : xs = (xs.map (·.1)).map fun b => (b, b.map List.length) := by
      rw [List.map_map]
      conv_lhs => rw [← List.map_id xs]
      exact List.map_congr_left fun y hy => Prod.ext rfl (hxs y hy)
    rw [hself, hbs, batchesOf, List.map_map]
    rfl

end Backfill

/-- **An evaluation succeeds if nothing is out.** -/
theorem Evaluation.exists_run_ok (r : Registry) {c : Snapshot} (hc : c.Loaded) (sel : Selection)
    (mode : Mode) (us : List Urn) {p : Platform} (hp : p.outages = []) :
    ∃ rs q, (run r c sel mode us).run p = (.ok rs, q) := by
  obtain ⟨rs, o, heval, halike, -⟩ :=
    (looks_evaluate r p.store hc sel (Sorted.ofList us)).gives rfl hp
  cases mode with
  | evaluateOnly => exact ⟨rs, o, by unfold run; rw [Run.run_bind, heval]; rfl⟩
  | full =>
    obtain ⟨stored, o', hmerged, halike', -⟩ :=
      (looks_merged c sel o.store rs).gives rfl (halike.outages.trans hp)
    have ho : o'.outages = [] := halike'.outages.trans (halike.outages.trans hp)
    have hnone : ∀ (n : Nat) (log : List Call), ¬ Outages.Hit [] n log := by
      intro n log
      induction log generalizing n with
      | nil => exact id
      | cons c log ih => exact fun h => h.elim (fun h => by cases h) (ih _)
    obtain ⟨hpersist, -⟩ := (run_persist_eq stored o').resolve_right fun ⟨_, _, _, _, _, _, h, _⟩ =>
      hnone _ _ (by unfold Platform.Out at h; rwa [ho] at h)
    obtain ⟨q, happly, -, -⟩ := run_applyAll (dispatch c rs) (o'.wrote stored)
    refine ⟨rs, q, ?_⟩
    rw [run_full_eq, Run.run_bind, heval]
    dsimp only
    rw [Run.run_bind, hmerged]
    dsimp only
    rw [finish, Run.run_bind, hpersist]
    dsimp only
    rw [Run.run_bind, happly]
    rfl

open Backfill in
/-- **A backfill hands out every entity of its types once, and failures stay where they are.** For
each type the batches are the pages of the listing as it was at first, all of them if no search for
the type is out, else those before the first one that is and the failure itself; each of them is
evaluated or counted as failed, whatever becomes of the others. The pages are the listing, cut into
parts. If nothing is out, then all entities of the types are evaluated. -/
theorem Engine.backfill_covers (e : Engine) (he : e.snapshot.Loaded) (mode : Mode)
    (limits : BackfillLimits) (hconc : 0 < limits.concurrency) (p : Platform)
    (hp : Searchable limits.batchSize p) (hstore : p.store.Ordered) :
    let all := ((allEntries e mode limits).run p).1
    let q := ((allEntries e mode limits).run p).2
    let xs := all.flatMap (·.2)
    (e.backfill mode limits).run p =
      (⟨e.entityTypes, xs.length, (xs.map entitiesOf).sum, xs.countP failed⟩, q) ∧
    (all.map (·.1) = e.entityTypes ∧ e.entityTypes.Nodup) ∧
    (∀ x ∈ all, Covers limits.batchSize x.1 p q (x.2.map (·.1)) ∧
      ∀ y ∈ x.2, Answered e mode p.outages y) ∧
    (∀ t, (p.store.urns t).Nodup ∧
      (pages limits.batchSize (p.store.urns t)).flatten = p.store.urns t ∧
      ∀ k ≤ (pages limits.batchSize (p.store.urns t)).length,
        ((pages limits.batchSize (p.store.urns t)).take k).flatten =
          (p.store.urns t).take (k * limits.batchSize)) ∧
    (p.outages = [] → ∀ x ∈ all,
      x.2 = (pages limits.batchSize (p.store.urns x.1)).map (fun us => (.ok us, .ok us.length)) ∧
      x.2.length = ((p.store.urns x.1).length + limits.batchSize - 1) / limits.batchSize ∧
      (x.2.map entitiesOf).sum = (p.store.urns x.1).length) := by
  intro all q xs
  have hnodup : e.entityTypes.Nodup := by
    obtain ⟨items, hitems⟩ := he
    unfold entityTypes
    rw [hitems]
    exact Sorted.nodup_of_pairwise Snapshot.pairwise_entityTypes_ofDefinitions
  have hrun : Surveys e mode limits.batchSize e.entityTypes p (all, q) :=
    run_types hconc e.entityTypes hnodup hstore.entities hp
  refine ⟨?_, ⟨hrun.types, hnodup⟩, fun x hx => ⟨hrun.covers x hx, hrun.answered x hx⟩,
    fun t => ⟨?_, pages_flatten hp.pos, fun k => take_pages_flatten⟩, fun hout x hx => ?_⟩
  · rw [backfill_eq]
    show (tallied ⟨e.entityTypes, 0, 0, 0⟩ xs, q) = _
    rw [tallied_eq]
    simp only [Nat.zero_add]
  · exact (Sorted.nodup_of_pairwise hstore.entities).sublist List.filter_sublist
  · have hxs : x.2 =
        (pages limits.batchSize (p.store.urns x.1)).map fun us => (.ok us, .ok us.length) := by
      refine entries_eq_of_answered (hrun.covers x hx) (hrun.upkept.outages.trans hout)
        fun y hy => ?_
      have hanswer := hrun.answered x hx y hy
      obtain ⟨_ | us, answer⟩ := y
      · exact hanswer
      · obtain ⟨o, ho, rfl⟩ := hanswer
        obtain ⟨rs, q, hok⟩ := Evaluation.exists_run_ok e.registry he .all mode us (ho.trans hout)
        show ((e.evaluate .all mode us).run o).1.map _ = _
        rw [evaluate, hok]
        rfl
    refine ⟨hxs, ?_, ?_⟩
    · rw [hxs, List.length_map, length_pages]
      rfl
    · rw [hxs, List.map_map]
      show ((pages limits.batchSize (p.store.urns x.1)).map List.length).sum = _
      rw [← List.length_flatten, pages_flatten hp.pos]

/-- Three things of which nothing is known; the second page of them cannot be read. -/
def Platform.ofThings : Platform :=
  { Platform.ofStore ⟨[(.thing, []), ({ Urn.thing with key := "2", key_ne := by decide }, []),
      ({ Urn.thing with key := "3", key_ne := by decide }, [])], []⟩ [] 0 with
    outages := [(⟨.scroll, .place 4⟩, "down")] }

open Backfill in
theorem Engine.backfill_things :
    let e : Engine := ⟨.ofOwners, ⟨⟨1, .ofOwned⟩, 0, none⟩⟩
    let p := Platform.ofThings
    let r := (allEntries e .full ⟨2, 1⟩).run p
    e.snapshot.Loaded ∧ Searchable 2 p ∧ p.store.Ordered ∧
      ((e.backfill .full ⟨2, 1⟩).run p).1 = ⟨["thing"], 2, 2, 1⟩ ∧
      ∀ x ∈ r.1, Covers 2 x.1 p r.2 (x.2.map (·.1)) := by
  intro e p r
  have he : e.snapshot.Loaded := ⟨_, rfl⟩
  have hp : Searchable 2 p := ⟨rfl, by decide, by decide, by decide⟩
  have hstore : p.store.Ordered := ⟨by decide +kernel, by decide +kernel⟩
  obtain ⟨hreport, -, hcovers, -, -⟩ := backfill_covers e he .full ⟨2, 1⟩ (by decide) p hp hstore
  refine ⟨he, hp, hstore, ?_, fun x hx => (hcovers x hx).1⟩
  rw [hreport]
  decide +kernel

end CatalogRules

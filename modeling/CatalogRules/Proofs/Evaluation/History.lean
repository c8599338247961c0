import CatalogRules.Proofs.Evaluation.Stored

/-! # Stored results over time

An engine evaluates, again and again, entities in a store, while its cache is refreshed, definitions
come and go, and aspects change (`Step`, `History`). An evaluation decides what is stored about a
test of an entity if it was committed, if it was about the entity, and if it was about all tests or
asked for this one while the test was in the cache (`Operation.decides`).

What is stored about a test is what the last evaluation that decides it returned
(`stored_iff_last`). The invariant behind this (`Kept`) also says that stored results are
well-formed: no test has two outcomes, and passing and failing tests are not mixed up. -/

namespace CatalogRules

/-! ### Results -/

/-- No test has two outcomes, and each outcome is in its place. -/
structure Results.WellFormed (res : Results) : Prop where
  unique : (res.outcomes.map (·.test)).Nodup
  passing : ∀ o ∈ res.passing, o.verdict = .success
  failing : ∀ o ∈ res.failing, o.verdict = .failure

namespace Results

theorem mem_restrict {res : Results} {sel : Selection} {o : Outcome} :
    o ∈ (res.restrict sel).outcomes ↔
      o ∈ res.outcomes ∧ ∀ ids, sel = .only ids → o.test ∈ ids := by
  cases sel with
  | all => simp [restrict]
  | only ids =>
    simp only [restrict, outcomes, List.mem_append, List.mem_filter, List.contains_iff_mem,
      Selection.only.injEq, forall_eq']
    tauto

theorem WellFormed.restrict {res : Results} (h : res.WellFormed) (sel : Selection) :
    (res.restrict sel).WellFormed := by
  cases sel with
  | all => exact h
  | only ids =>
    refine ⟨?_, fun o ho => h.passing o (List.mem_filter.mp ho).1,
      fun o ho => h.failing o (List.mem_filter.mp ho).1⟩
    have hsub : ((res.restrict (.only ids)).outcomes).Sublist res.outcomes :=
      List.filter_sublist.append List.filter_sublist
    exact h.unique.sublist (hsub.map _)

theorem mem_mergePrior {res prior : Results} {evaluated : List String} {o : Outcome} :
    o ∈ (res.mergePrior prior evaluated).outcomes ↔
      o ∈ res.outcomes ∨ o ∈ prior.outcomes ∧ o.test ∉ evaluated := by
  simp only [mergePrior, outcomes, List.mem_append, List.mem_filter, List.contains_iff_mem,
    decide_eq_true_eq]
  tauto

/-- Outcomes of tests that were evaluated and prior outcomes of others do not collide. -/
theorem WellFormed.mergePrior {res prior : Results} (h : res.WellFormed) (k : prior.WellFormed)
    {evaluated : List String} (he : ∀ o ∈ res.outcomes, o.test ∈ evaluated) :
    (res.mergePrior prior evaluated).WellFormed := by
  refine ⟨?_, fun o ho => ?_, fun o ho => ?_⟩
  · have hperm : (res.mergePrior prior evaluated).outcomes.Perm
        (res.outcomes ++ prior.outcomes.filter fun o => ¬ evaluated.contains o.test) := by
      simp only [Results.mergePrior, outcomes, List.filter_append, List.append_assoc]
      refine List.Perm.append_left _ ?_
      rw [← List.append_assoc, ← List.append_assoc]
      exact List.Perm.append_right _ List.perm_append_comm
    rw [(hperm.map _).nodup_iff, List.map_append, List.nodup_append]
    refine ⟨h.unique, k.unique.sublist (List.filter_sublist.map _), ?_⟩
    intro t ht t' ht' heq
    obtain ⟨o, ho, rfl⟩ := List.mem_map.mp ht
    obtain ⟨o', ho', rfl⟩ := List.mem_map.mp ht'
    have hnot := (List.mem_filter.mp ho').2
    rw [← heq] at hnot
    simp [he o ho] at hnot
  · rcases List.mem_append.mp ho with ho | ho
    · exact h.passing o ho
    · exact k.passing o (List.mem_filter.mp ho).1
  · rcases List.mem_append.mp ho with ho | ho
    · exact h.failing o ho
    · exact k.failing o (List.mem_filter.mp ho).1

theorem wellFormed_empty : empty.WellFormed := ⟨List.nodup_nil, by simp [empty], by simp [empty]⟩

end Results

theorem Snapshot.wellFormed_verdicts {c : Snapshot} (hc : c.Loaded) (r : Registry) (s : Store)
    (u : Urn) : (c.verdicts r s u).WellFormed := by
  refine ⟨nodup_tests_verdicts hc, fun o ho => ?_, fun o ho => ?_⟩
  all_goals
    obtain ⟨d, -, rfl⟩ := List.mem_map.mp ho
    rfl

namespace Evaluation

variable {c : Snapshot} {res prior : Results} {sel : Selection}

/-- The results are about selected tests of the snapshot only. -/
def About (c : Snapshot) (sel : Selection) (res : Results) : Prop :=
  ∀ o ∈ res.outcomes, c.has o.test ∧ ∀ ids, sel = .only ids → o.test ∈ ids

theorem wellFormed_toStore (h : res.WellFormed) (k : prior.WellFormed) (ha : About c sel res) :
    (toStore c res prior sel).WellFormed := by
  cases sel with
  | all => exact h
  | only ids =>
    refine h.mergePrior k fun o ho => ?_
    exact List.mem_filter.mpr ⟨(ha o ho).2 ids rfl, (ha o ho).1⟩

end Evaluation

/-! ### Histories -/

/-- An evaluation that succeeded: by which definitions, of which entities and tests, whether it was
committed, and what it returned. -/
structure Operation where
  snapshot : Snapshot
  urns : List Urn
  selection : Selection
  mode : Mode
  returned : Evaluation

namespace Operation

/-- The outcomes that were returned for an entity. -/
def outcomes (op : Operation) (u : Urn) : List Outcome :=
  ((op.returned.lookup u).getD .empty).outcomes

/-- The operation decides what is stored about a test of an entity. -/
def decides (op : Operation) (u : Urn) (t : String) : Bool :=
  op.mode == .full && op.urns.contains u && match op.selection with
    | .all => true
    | .only ids => ids.contains t && op.snapshot.has t

end Operation

/-- An engine and the platform that it works on. -/
structure World where
  engine : Engine
  platform : Platform

namespace World

/-- An outcome of a test is stored for an entity. -/
def Stores (w : World) (u : Urn) (t : String) (v : Verdict) : Prop :=
  ∃ res, w.platform.store.results? u = some res ∧ ⟨t, v⟩ ∈ res.outcomes

/-- The cache holds what was loaded, and no results are stored. -/
structure Begins (w : World) : Prop where
  loaded : w.engine.snapshot.Loaded
  noResults : ∀ u, w.platform.store.aspect? u Store.resultsAspect = none

end World

/-- **What can happen**: an evaluation that succeeds, a refresh of the cache, a change of the
definitions, or of an aspect other than the results. -/
inductive Step : World → Option Operation → World → Prop
  | evaluate {e : Engine} {p q : Platform} {sel : Selection} {mode : Mode} {us : List Urn}
    {rs : Evaluation} (h : (e.evaluate sel mode us).run p = (.ok rs, q)) :
    Step ⟨e, p⟩ (some ⟨e.snapshot, us, sel, mode, rs⟩) ⟨e, q⟩
  | evaluateOne {e : Engine} {p q : Platform} {sel : Selection} {mode : Mode} {u : Urn}
    {res : Results} (h : (e.evaluateOne sel mode u).run p = (.ok res, q)) :
    Step ⟨e, p⟩ (some ⟨e.snapshot, [u], sel, mode, [(u, res)]⟩) ⟨e, q⟩
  | refresh {e : Engine} {p q : Platform} {answer : Except Failure Nat} {r : Refresher}
    (h : e.refresher.refresh.run p = ((answer, r), q)) :
    Step ⟨e, p⟩ none ⟨{ e with refresher := r }, q⟩
  | invalidate {e : Engine} {p q : Platform} {r : Refresher}
    (h : e.refresher.invalidate.run p = (r, q)) :
    Step ⟨e, p⟩ none ⟨{ e with refresher := r }, q⟩
  | wait {e : Engine} {p q : Platform} {r : Refresher} {ms : Nat}
    (h : (e.refresher.wait ms).run p = (r, q)) :
    Step ⟨e, p⟩ none ⟨{ e with refresher := r }, q⟩
  | putDefinition {e : Engine} {p : Platform} (id text : String) :
    Step ⟨e, p⟩ none ⟨e, { p with store := p.store.putDefinition id text }⟩
  | removeDefinition {e : Engine} {p : Platform} (id : String) :
    Step ⟨e, p⟩ none ⟨e, { p with store := p.store.removeDefinition id }⟩
  | putAspect {e : Engine} {p : Platform} (u : Urn) {name : String} (a : Envelope)
    (h : name ≠ Store.resultsAspect) :
    Step ⟨e, p⟩ none ⟨e, { p with store := p.store.putAspect u name a }⟩
  | tick {e : Engine} {p : Platform} (now : Int) : Step ⟨e, p⟩ none ⟨e, { p with now := now }⟩

/-- A finite run from a world, with its evaluations, the last one first. -/
inductive History (start : World) : List Operation → World → Prop
  | nil : History start [] start
  | step {ops : List Operation} {op : Option Operation} {w w' : World} (h : History start ops w)
    (hs : Step w op w') : History start (op.toList ++ ops) w'

/-! ### The invariant -/

/-- **What is stored about a test is what the last evaluation that decides it returned.** -/
structure Kept (ops : List Operation) (w : World) : Prop where
  loaded : w.engine.snapshot.Loaded
  stored : ∀ u v, w.platform.store.resultsValue? u = some v →
    ∃ res : Results, v = res.toValue ∧ res.WellFormed
  last : ∀ u t v, w.Stores u t v ↔
    ∃ op, ops.find? (·.decides u t) = some op ∧ ⟨t, v⟩ ∈ op.outcomes u

namespace Kept

variable {ops : List Operation} {e e' : Engine} {p q : Platform}

theorem stores_iff {w : World} {u : Urn} {t : String} {v : Verdict} : w.Stores u t v ↔
    ⟨t, v⟩ ∈ ((w.platform.store.results? u).getD .empty).outcomes := by
  unfold World.Stores
  cases w.platform.store.results? u with
  | none => simp [Results.empty, Results.outcomes]
  | some res => simp

theorem begins {w : World} (h : w.Begins) : Kept [] w where
  loaded := h.loaded
  stored u v hv := by simp [Store.resultsValue?, h.noResults u] at hv
  last u t v := by simp [World.Stores, Store.results?, h.noResults u]

/-- The prior results of an entity are well-formed. -/
theorem prior (h : Kept ops ⟨e, p⟩) (u : Urn) : ((p.store.results? u).getD .empty).WellFormed := by
  rw [Store.results?_eq]
  cases hv : p.store.resultsValue? u with
  | none => exact Results.wellFormed_empty
  | some v =>
    obtain ⟨res, rfl, hres⟩ := h.stored u v hv
    simpa [Results.ofValue?_toValue] using hres

/-- Steps that neither evaluate nor change the stored results. -/
theorem unchanged (h : Kept ops ⟨e, p⟩) (hl : e'.snapshot.Loaded)
    (hs : q.store.resultsValue? = p.store.resultsValue?) : Kept ops ⟨e', q⟩ where
  loaded := hl
  stored u v hv := h.stored u v (by rw [← hs]; exact hv)
  last u t v := by
    rw [← h.last u t v, stores_iff, stores_iff, Store.results?_eq, Store.results?_eq, hs]

variable {sel : Selection} {us : List Urn} {rs returned : Evaluation}

theorem find?_of_not_decides {op : Operation} {u : Urn} {t : String} (h : op.decides u t = false) :
    (op :: ops).find? (·.decides u t) = ops.find? (·.decides u t) := by
  rw [List.find?_cons, h]

/-- An evaluation that is not committed decides nothing. -/
theorem evaluateOnly (h : Kept ops ⟨e, p⟩)
    (hrun : (e.evaluate sel .evaluateOnly us).run p = (.ok rs, q)) :
    Kept (⟨e.snapshot, us, sel, .evaluateOnly, returned⟩ :: ops) ⟨e, q⟩ := by
  obtain ⟨-, hs⟩ := Evaluation.run_evaluateOnly h.loaded hrun
  obtain ⟨hl, hw, hlast⟩ := h.unchanged (q := q) h.loaded (by rw [hs])
  refine ⟨hl, hw, fun u t v => ?_⟩
  rw [hlast, find?_of_not_decides (by simp [Operation.decides])]

/-- What is stored for an entity of a committed evaluation is decided test by test. -/
theorem toStore_iff {c : Snapshot} {res prior : Results} (ha : Evaluation.About c sel res)
    {u : Urn} {t : String} {v : Verdict} (hu : u ∈ us) :
    ⟨t, v⟩ ∈ (Evaluation.toStore c res prior sel).outcomes ↔
      if Operation.decides ⟨c, us, sel, .full, returned⟩ u t then ⟨t, v⟩ ∈ res.outcomes
      else ⟨t, v⟩ ∈ prior.outcomes := by
  have hu' : us.contains u = true := List.contains_iff_mem.mpr hu
  cases sel with
  | all => simp [Operation.decides, hu, Evaluation.toStore]
  | only ids =>
    have hmem : t ∈ ids.filter c.has ↔ t ∈ ids ∧ c.has t := List.mem_filter
    have hdecides : Operation.decides ⟨c, us, .only ids, .full, returned⟩ u t = true ↔
        t ∈ ids ∧ c.has t := by
      simp [Operation.decides, hu]
    rw [Evaluation.toStore, Results.mem_mergePrior, hmem]
    by_cases ht : t ∈ ids ∧ c.has t
    · rw [if_pos (hdecides.mpr ht)]
      simp [ht]
    · rw [if_neg fun hd => ht (hdecides.mp hd)]
      have hno : ⟨t, v⟩ ∉ res.outcomes := fun ho => ht ⟨(ha _ ho).2 ids rfl, (ha _ ho).1⟩
      simp only [hno, ht, false_or, not_false_eq_true, and_true]

/-- **A committed evaluation decides the tests that it is about, and leaves the others.** -/
theorem full (h : Kept ops ⟨e, p⟩) (hrun : (e.evaluate sel .full us).run p = (.ok rs, q))
    (hreturned : ∀ u ∈ us, returned.lookup u = rs.lookup u) :
    Kept (⟨e.snapshot, us, sel, .full, returned⟩ :: ops) ⟨e, q⟩ := by
  obtain ⟨hrs, hs⟩ := Evaluation.run_full h.loaded hrun
  -- what is returned for an entity, and what is stored for it
  have hlookup : ∀ u, rs.lookup u = if u ∈ us then
      some ((e.snapshot.verdicts e.registry p.store u).restrict sel) else none := by
    intro u
    rw [hrs, lookup_map_self]
    simp only [Sorted.mem_ofList]
  have hin : ∀ u ∈ us, q.store.results? u = some (Evaluation.toStore e.snapshot
      ((e.snapshot.verdicts e.registry p.store u).restrict sel)
      ((p.store.results? u).getD .empty) sel) := by
    intro u hu
    rw [Store.results?_eq, hs u, hlookup u, if_pos hu, Option.bind_some, Results.ofValue?_toValue]
  have hout : ∀ u, u ∉ us → q.store.resultsValue? u = p.store.resultsValue? u := by
    intro u hu
    rw [hs u, hlookup u, if_neg hu]
  have habout : ∀ u, Evaluation.About e.snapshot sel
      ((e.snapshot.verdicts e.registry p.store u).restrict sel) := by
    intro u o ho
    obtain ⟨hmem, hids⟩ := Results.mem_restrict.mp ho
    exact ⟨Snapshot.has_of_mem_verdicts h.loaded hmem, hids⟩
  refine ⟨h.loaded, fun u v hv => ?_, fun u t v => ?_⟩
  · by_cases hu : u ∈ us
    · rw [hs u, hlookup u, if_pos hu] at hv
      cases hv
      refine ⟨_, rfl, Evaluation.wellFormed_toStore ?_ (h.prior u) (habout u)⟩
      exact (Snapshot.wellFormed_verdicts h.loaded _ _ u).restrict sel
    · exact h.stored u v (by rw [← hout u hu]; exact hv)
  · by_cases hu : u ∈ us
    · have hop : Operation.outcomes ⟨e.snapshot, us, sel, .full, returned⟩ u =
          ((e.snapshot.verdicts e.registry p.store u).restrict sel).outcomes := by
        rw [Operation.outcomes, hreturned u hu, hlookup u, if_pos hu, Option.getD_some]
      rw [stores_iff, hin u hu, Option.getD_some, toStore_iff (habout u) hu]
      cases hd : Operation.decides ⟨e.snapshot, us, sel, .full, returned⟩ u t with
      | true => simp [hd, hop]
      | false => rw [find?_of_not_decides hd, ← h.last u t v, stores_iff]; rfl
    · have hd : Operation.decides ⟨e.snapshot, us, sel, .full, returned⟩ u t = false := by
        simp [Operation.decides, hu]
      rw [find?_of_not_decides hd, ← h.last u t v, stores_iff, stores_iff, Store.results?_eq,
        Store.results?_eq, hout u hu]

/-- **Every step keeps the invariant.** -/
theorem step {w w' : World} {op : Option Operation} (h : Kept ops w) (hs : Step w op w') :
    Kept (op.toList ++ ops) w' := by
  cases hs with
  | @evaluate e p q sel mode us rs hrun =>
    cases mode with
    | evaluateOnly => exact h.evaluateOnly hrun
    | full => exact h.full hrun fun _ _ => rfl
  | @evaluateOne e p q sel mode u res hrun =>
    obtain ⟨rs, o, hrun, hres⟩ := Run.run_bind_ok hrun
    cases hres
    cases mode with
    | evaluateOnly => exact h.evaluateOnly hrun
    | full =>
      refine h.full hrun fun v hv => ?_
      obtain rfl := List.mem_singleton.mp hv
      obtain ⟨hrs, -⟩ := Evaluation.run_full h.loaded hrun
      rw [hrs, lookup_map_self]
      simp [Sorted.mem_ofList]
  | @refresh e p q answer r hrun =>
    obtain ⟨hl, hstore⟩ := Cache.refresh_loaded h.loaded p
    have hr : e.refresher.refresh.run p =
        (((e.refresher.cache.refresh.run p).1.1,
          { e.refresher with cache := (e.refresher.cache.refresh.run p).1.2 }),
          (e.refresher.cache.refresh.run p).2) := rfl
    rw [hr] at hrun
    cases hrun
    exact h.unchanged hl (by rw [hstore])
  | @invalidate e p q r hrun =>
    obtain ⟨hl, hstore⟩ := Refresher.invalidate_loaded h.loaded p
    rw [hrun] at hl hstore
    exact h.unchanged hl (by rw [hstore])
  | @wait e p q r ms hrun =>
    obtain ⟨hl, hstore⟩ := Refresher.wait_loaded h.loaded ms p
    rw [hrun] at hl hstore
    exact h.unchanged hl (by rw [hstore])
  | putDefinition id text => exact h.unchanged h.loaded rfl
  | removeDefinition id => exact h.unchanged h.loaded rfl
  | putAspect u a hname => exact h.unchanged h.loaded (Store.resultsValue?_putAspect _ u a hname)
  | tick now => exact h.unchanged h.loaded rfl

theorem of_history {start w : World} (h0 : start.Begins) (h : History start ops w) :
    Kept ops w := by
  induction h with
  | nil => exact begins h0
  | step _ hs ih => exact ih.step hs

end Kept

/-- **Stored results are those of the last evaluation that decides them.** They are well-formed; a
further evaluation leaves what it does not decide and removes what it decides without outcome. -/
theorem stored_iff_last {start w : World} {ops : List Operation} (h0 : start.Begins)
    (h : History start ops w) :
    (∀ u t v, w.Stores u t v ↔
      ∃ op, ops.find? (·.decides u t) = some op ∧ ⟨t, v⟩ ∈ op.outcomes u) ∧
    (∀ u a, w.platform.store.aspect? u Store.resultsAspect = some a →
      ∃ res : Results, Results.ofValue? a.value = some res ∧ res.WellFormed) ∧
    ∀ op w', Step w (some op) w' → ∀ u t,
      (op.decides u t = false → ∀ v, w'.Stores u t v ↔ w.Stores u t v) ∧
      (op.decides u t = true → (∀ v, ⟨t, v⟩ ∉ op.outcomes u) → ∀ v, ¬ w'.Stores u t v) := by
  have hkept := Kept.of_history h0 h
  refine ⟨hkept.last, fun u a ha => ?_, fun op w' hs u t => ?_⟩
  · obtain ⟨res, hres, hwell⟩ := hkept.stored u a.value (by simp [Store.resultsValue?, ha])
    exact ⟨res, by rw [hres, Results.ofValue?_toValue], hwell⟩
  · have hlast := (hkept.step hs).last u t
    simp only [Option.toList_some, List.singleton_append, List.find?_cons] at hlast
    refine ⟨fun hd v => ?_, fun hd hno v hv => ?_⟩
    · rw [hlast v, hkept.last u t v, hd]
    · rw [hlast v, hd] at hv
      obtain ⟨op', heq, hmem⟩ := hv
      cases heq
      exact hno v hmem

/-- An engine that knows one definition, and a store that has not seen an evaluation. -/
def World.ofOwners : World :=
  ⟨⟨.ofOwners, ⟨⟨1, .ofOwned⟩, 0, none⟩⟩, .ofStore .ofOwners [] 0⟩

/-- An evaluation of all tests of the thing. -/
def Operation.ofThing (c : Snapshot) (res : Results) : Operation :=
  ⟨c, [.thing], .all, .full, [(.thing, res)]⟩

namespace World

/-- What an evaluation of all tests of the thing returns, if it succeeds. -/
def results? (w : World) : Option Results :=
  ((w.engine.evaluateOne .all .full .thing).run w.platform).1.toOption

/-- The world after an evaluation of all tests of the thing. -/
def evaluated (w : World) : World :=
  ⟨w.engine, ((w.engine.evaluateOne .all .full .thing).run w.platform).2⟩

/-- The world after the thing has lost its owners. -/
def disowned (w : World) : World :=
  ⟨w.engine, { w.platform with
    store := w.platform.store.putAspect .thing "owner" (.ofValue (.object [])) }⟩

/-- The world after a refresh of the cache. -/
def refreshed (w : World) : World :=
  let r := w.engine.refresher.refresh.run w.platform
  ⟨{ w.engine with refresher := r.1.2 }, r.2⟩

theorem step_evaluated {w : World} {res : Results} (h : w.results? = some res) :
    Step w (some (.ofThing w.engine.snapshot res)) w.evaluated := by
  refine Step.evaluateOne ?_
  unfold results? at h
  rcases hrun : (w.engine.evaluateOne .all .full .thing).run w.platform with ⟨_ | res', q⟩
  · rw [hrun] at h
    cases h
  · rw [hrun] at h
    cases h
    rfl

theorem step_disowned (w : World) : Step w none w.disowned := .putAspect .thing _ (by decide)

theorem step_refreshed (w : World) : Step w none w.refreshed := .refresh rfl

end World

/-- The thing is evaluated, and again when it has no owners any more, which overrides the outcome,
and again when the cache has found that there is no definition, which drops it. -/
theorem stored_owned :
    let first := World.ofOwners.evaluated.disowned
    let second := first.evaluated.refreshed
    let op : Operation := .ofThing .ofOwned ⟨[⟨"owned", .success⟩], []⟩
    let op' : Operation := .ofThing .ofOwned ⟨[], [⟨"owned", .failure⟩]⟩
    let op'' : Operation := .ofThing second.engine.snapshot .empty
    World.ofOwners.Begins ∧
      History .ofOwners [op', op] first.evaluated ∧
      (∀ v, first.evaluated.Stores .thing "owned" v ↔ v = .failure) ∧
      History .ofOwners [op'', op', op] second.evaluated ∧
      ∀ v, ¬ second.evaluated.Stores .thing "owned" v := by
  have hfirst : World.ofOwners.results? = some ⟨[⟨"owned", .success⟩], []⟩ := by decide +kernel
  have hsecond : World.ofOwners.evaluated.disowned.results? =
      some ⟨[], [⟨"owned", .failure⟩]⟩ := by decide +kernel
  have hthird : World.ofOwners.evaluated.disowned.evaluated.refreshed.results? = some .empty := by
    decide +kernel
  intro first second op op' op''
  have h0 : World.ofOwners.Begins := by
    refine ⟨⟨_, rfl⟩, fun u => ?_⟩
    have hall : ∀ e ∈ Store.ofOwners.entities, e.2.lookup Store.resultsAspect = none := by
      simp [Store.ofOwners, Store.resultsAspect]
    show (Store.ofOwners.entities.lookup u).bind (·.lookup Store.resultsAspect) = none
    cases hu : Store.ofOwners.entities.lookup u with
    | none => rfl
    | some a => exact hall _ (mem_of_lookup hu)
  have h1 : History .ofOwners [op] World.ofOwners.evaluated :=
    History.nil.step (World.step_evaluated hfirst)
  have h2 : History .ofOwners [op] first := h1.step (World.step_disowned _)
  have h3 : History .ofOwners [op', op] first.evaluated :=
    h2.step (World.step_evaluated hsecond)
  have h4 : History .ofOwners [op', op] second := h3.step (World.step_refreshed _)
  have h5 : History .ofOwners [op'', op', op] second.evaluated :=
    h4.step (World.step_evaluated hthird)
  -- each of the evaluations is about all tests of the thing, so the last one decides
  have hdecides : ∀ c res, (Operation.ofThing c res).decides .thing "owned" = true := by
    intro c res
    rfl
  refine ⟨h0, h3, fun v => ?_, h5, fun v => ?_⟩
  · rw [(stored_iff_last h0 h3).1 .thing "owned" v, List.find?_cons, hdecides]
    simp [op', Operation.ofThing, Operation.outcomes, Results.outcomes]
  · rw [(stored_iff_last h0 h5).1 .thing "owned" v, List.find?_cons, hdecides]
    simp [op'', Operation.ofThing, Operation.outcomes, Results.outcomes, Results.empty]

end CatalogRules

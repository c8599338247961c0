import CatalogRules.Proofs.Evaluation.Pointwise
import CatalogRules.Proofs.Keeping

/-! # What an evaluation stores

The stored results of an entity are read back as they were written (`ofValue?_toValue`). An action
never touches them (`keeps_applyAll`), nor does any change of another aspect.

An evaluation that is committed stores for each of its entities what it returned, together with the
prior outcomes of tests that were not evaluated (`Evaluation.toStore`), and for no other entity
anything (`run_full`); one that is not committed leaves the store as it was (`run_evaluateOnly`). -/

namespace CatalogRules

open Json (Value Document)

/-! ### Reading back -/

namespace Results

theorem outcome?_ofValue (o : Outcome) (n : Nat) :
    outcome? (n + 1) (Document.ofValue (outcomeValue o)) = some o := by
  obtain ⟨test, verdict⟩ := o
  cases verdict <;> rfl

theorem ofValues_eq_map (vs : List Value) : Document.ofValues vs = vs.map Document.ofValue := by
  induction vs with
  | nil => rfl
  | cons v vs ih => rw [Document.ofValues, ih, List.map_cons]

theorem list?_ofValue (os : List Outcome) (n : Nat) :
    Document.list? outcome? (n + 2) (Document.ofValue (.array (os.map outcomeValue))) =
      some os := by
  rw [Document.ofValue, ofValues_eq_map, List.map_map, Document.list?]
  induction os with
  | nil => rfl
  | cons o os ih =>
    rw [List.map_cons, List.mapM_cons, ih, Function.comp, outcome?_ofValue]
    rfl

/-- **Stored results are read back as they were.** -/
theorem ofValue?_toValue (r : Results) : ofValue? r.toValue = some r := by
  have hp := list?_ofValue r.passing 124
  have hf := list?_ofValue r.failing 124
  show (do
    let passing ←
      Document.list? outcome? 126 (Document.ofValue (.array (r.passing.map outcomeValue)))
    let failing ←
      Document.list? outcome? 126 (Document.ofValue (.array (r.failing.map outcomeValue)))
    some (Results.mk passing failing)) = some r
  rw [hp, hf]
  rfl

end Results

/-! ### Aspects -/

namespace Store

/-- What is stored as the results of an entity. -/
def resultsValue? (s : Store) (u : Urn) : Option Value :=
  (s.aspect? u resultsAspect).map (·.value)

theorem results?_eq (s : Store) (u : Urn) :
    s.results? u = (s.resultsValue? u).bind Results.ofValue? := by
  unfold results? resultsValue?
  cases s.aspect? u resultsAspect <;> rfl

theorem resultsValue?_putResults (s : Store) (now : Int) (u : Urn) (r : Results) (v : Urn) :
    (s.putResults now u r).resultsValue? v =
      if v = u then some r.toValue else s.resultsValue? v := by
  unfold putResults resultsValue?
  rw [aspect?_putAspect]
  by_cases hv : v = u <;> simp [hv]

theorem resultsValue?_putAspect (s : Store) (u : Urn) {name : String} (e : Envelope)
    (h : name ≠ resultsAspect) : (s.putAspect u name e).resultsValue? = s.resultsValue? := by
  funext v
  unfold resultsValue?
  rw [aspect?_putAspect, if_neg fun hv => h hv.2.symm]

theorem resultsValue?_edit (now : Int) (kind : ActionKind) (args : Arguments) (s : Store)
    (us : List Urn) : (Edit.store now kind args s us).resultsValue? = s.resultsValue? := by
  have ht : kind.target.aspect ≠ resultsAspect := by cases kind <;> decide
  unfold Edit.store
  induction us generalizing s with
  | nil => rfl
  | cons u us ih =>
    rw [List.foldl_cons, ih]
    exact resultsValue?_putAspect s u _ ht

end Store

/-! ### Actions -/

theorem Handlers.resultsValue?_apply {h : Handlers} {now : Int} {kind : ActionKind}
    {params : Params} {us : List Urn} {s s' : Store} (ha : h.apply now kind params us s = .ok s') :
    s'.resultsValue? = s.resultsValue? := by
  obtain ⟨_, -, ha⟩ := bind_eq_ok.mp ha
  split_ifs at ha
  · cases ha
    rfl
  · unfold handle at ha
    split at ha
    · cases ha
      exact Store.resultsValue?_edit now kind _ s us
    · cases ha

namespace Evaluation

theorem keeps_applyAction (a : Action) (us : List Urn) :
    Run.Keeps Store.resultsValue? (Run.applyAction a us) fun _ => True := by
  refine (Run.Keeps.call _).bind fun _ _ p => ⟨?_, fun _ _ => trivial⟩
  rw [Run.run_get_bind]
  cases ha : p.handlers.apply p.now a.kind a.params us p.store with
  | ok s => exact Handlers.resultsValue?_apply ha
  | error e => rfl

/-- **Actions leave the stored results alone.** -/
theorem keeps_applyAll (todo : List (Action × List Urn)) :
    Run.Keeps Store.resultsValue? (applyAll todo) fun _ => True := by
  refine Run.Keeps.forM _ fun (a, us) _ => ?_
  unfold attempt
  refine Run.Keeps.bind (P := fun _ => True) ?_ fun _ _ => .count _
  refine Run.Keeps.tryCatch ?_ fun _ => .pure trivial
  exact (keeps_applyAction a us).bind fun _ _ => .pure trivial

/-! ### Storing -/

theorem run_persistResult {u : Urn} {r : Results} {p q : Platform}
    (h : (Run.persistResult u r).run p = (.ok (), q)) :
    q.store.resultsValue? = fun v => if v = u then some r.toValue else p.store.resultsValue? v := by
  obtain ⟨_, o, hcall, h⟩ := Run.run_bind_ok h
  have ho : o.store = p.store := by
    have hs := (Run.Keeps.call (f := id) (.persistResult u r) p).1
    rw [hcall] at hs
    exact hs
  cases h
  funext v
  show (o.store.putResults o.now u r).resultsValue? v = _
  rw [Store.resultsValue?_putResults, ho]

/-- **Persisting stores the results of each entity and nothing else.** -/
theorem run_persist : ∀ {rs : Evaluation} {p q : Platform}, (rs.map (·.1)).Nodup →
    (persist rs).run p = (.ok (), q) → ∀ v, q.store.resultsValue? v =
      match rs.lookup v with
      | some r => some r.toValue
      | none => p.store.resultsValue? v
  | [], _, _, _, h, _ => by
    cases h
    rfl
  | (u, r) :: rs, p, q, hn, h, v => by
    obtain ⟨hu, hn⟩ := List.nodup_cons.mp hn
    have h : (Run.persistResult u r >>= fun _ => persist rs).run p = (.ok (), q) := h
    obtain ⟨_, o, hone, hrest⟩ := Run.run_bind_ok h
    rw [run_persist hn hrest v, run_persistResult hone, List.lookup_cons]
    by_cases hv : v = u
    · subst hv
      rw [lookup_eq_none.mpr hu]
      simp
    · have hvu : (v == u) = false := by simpa using hv
      rw [hvu]
      simp [hv]

/-! ### Prior results -/

theorem lookup_storedResults (s : Store) (us : List Urn) (u : Urn) :
    (storedResults (s.fetch us [Store.resultsAspect])).lookup u =
      if u ∈ us then s.results? u else none := by
  unfold storedResults Store.fetch
  rw [List.filterMap_filterMap, lookup_filterMap]
  · by_cases hu : u ∈ us
    · rw [if_pos hu, if_pos hu, Store.results?, Store.aspect?]
      cases ha : s.entity? u with
      | none => rfl
      | some a =>
        have hl := lookup_filter_keys (fun k => [Store.resultsAspect].contains k) a
          Store.resultsAspect
        simp only [Option.map_some, Option.bind_some, Option.bind_eq_bind, hl]
        cases a.lookup Store.resultsAspect with
        | none => rfl
        | some e =>
          simp only [List.contains_cons, BEq.rfl, Bool.true_or, if_true, Option.bind_some]
          cases Results.ofValue? e.value <;> rfl
    · rw [if_neg hu, if_neg hu]
  · intro v y hy
    obtain ⟨⟨w, a⟩, hw, hy⟩ := Option.bind_eq_some_iff.mp hy
    obtain ⟨a', -, heq⟩ := Option.map_eq_some_iff.mp hw
    obtain ⟨rfl, rfl⟩ := Prod.mk.inj heq
    obtain ⟨e, -, hy⟩ := Option.bind_eq_some_iff.mp hy
    obtain ⟨r, -, hy⟩ := Option.bind_eq_some_iff.mp hy
    cases hy
    rfl

/-- **The prior results are the stored ones.** -/
theorem looks_prior (s : Store) (us : List Urn) :
    Run.Looks s (prior us) fun found => ∀ u ∈ us, found.lookup u = s.results? u := by
  unfold prior
  refine (Run.Looks.foldlM (I := fun done found => ∀ u, found.lookup u =
    if u ∈ us ∧ u.entityType ∈ done then s.results? u else none) (by simp) ?_).mono ?_
  · intro done t rest found _ hfound
    refine (Run.Looks.fetchAspects _ _ _).bind fun fetched hfetched => .pure fun u => ?_
    rw [List.lookup_append, hfound u, hfetched, lookup_storedResults]
    simp only [List.mem_filter, decide_eq_true_eq, List.mem_append, List.mem_singleton]
    generalize u.entityType = k
    by_cases hk : k = t
    · subst hk
      by_cases hu : u ∈ us <;> by_cases hd : k ∈ done <;> simp [hu, hd]
    · simp [hk]
  · intro found hfound u hu
    rw [hfound u, if_pos ⟨hu, Sorted.mem_ofList.mpr (List.mem_map_of_mem hu)⟩]

/-! ### The whole -/

/-- What is stored for an entity when an evaluation returns some results for it, given the prior
results. -/
def toStore (c : Snapshot) (returned prior : Results) : Selection → Results
  | .all => returned
  | .only ids => returned.mergePrior prior (ids.filter c.has)

/-- The results that are stored for the entities of an evaluation. -/
def allToStore (c : Snapshot) (sel : Selection) (s : Store) (rs : Evaluation) : Evaluation :=
  rs.map fun e => (e.1, toStore c e.2 ((s.results? e.1).getD .empty) sel)

theorem looks_merged (c : Snapshot) (sel : Selection) (s : Store) (rs : Evaluation) :
    Run.Looks s (merged c sel rs) (· = allToStore c sel s rs) := by
  unfold merged
  cases sel with
  | all => exact .pure (List.map_id' rs).symm
  | only ids =>
    refine (looks_prior s _).bind fun stored hstored => .pure ?_
    refine List.map_congr_left fun (u, res) he => ?_
    dsimp only
    rw [hstored u (List.mem_map_of_mem he)]
    rfl

/-- **A commit stores for each entity what it has to, and for no other entity anything.** -/
theorem run_commit {c : Snapshot} {sel : Selection} {rs : Evaluation} {p q : Platform}
    (hn : (rs.map (·.1)).Nodup) (h : (commit c sel rs).run p = (.ok (), q)) :
    ∀ v, q.store.resultsValue? v = match rs.lookup v with
      | some r => some (toStore c r ((p.store.results? v).getD .empty) sel).toValue
      | none => p.store.resultsValue? v := by
  intro v
  obtain ⟨rs', o, hmerged, h⟩ := Run.run_bind_ok h
  obtain ⟨halike, rfl⟩ := (looks_merged c sel p.store rs).gave rfl hmerged
  obtain ⟨_, o', hpersist, happly⟩ := Run.run_bind_ok h
  have hkeeps := (keeps_applyAll (dispatch c rs) o').1
  rw [happly] at hkeeps
  have hn' : ((allToStore c sel p.store rs).map (·.1)).Nodup := by
    rw [allToStore, List.map_map]
    exact hn
  rw [show q.store.resultsValue? = o'.store.resultsValue? from hkeeps, run_persist hn' hpersist v,
    halike.store, allToStore,
    lookup_map_values fun u r => toStore c r ((p.store.results? u).getD .empty) sel]
  cases rs.lookup v <;> rfl

variable {r : Registry} {c : Snapshot} {sel : Selection} {us : List Urn} {p q : Platform}
  {rs : Evaluation}

theorem run_evaluateOnly (hc : c.Loaded) (h : (run r c sel .evaluateOnly us).run p = (.ok rs, q)) :
    rs = ((Sorted.ofList us).map fun u => (u, (c.verdicts r p.store u).restrict sel)) ∧
      q.store = p.store := by
  have h : (evaluate r c sel (Sorted.ofList us)).run p = (.ok rs, q) := by
    rw [← bind_pure (evaluate r c sel (Sorted.ofList us))]
    exact h
  obtain ⟨halike, hrs⟩ := (looks_evaluate r p.store hc sel _).gave rfl h
  exact ⟨hrs, halike.store⟩

theorem run_full (hc : c.Loaded) (h : (run r c sel .full us).run p = (.ok rs, q)) :
    rs = ((Sorted.ofList us).map fun u => (u, (c.verdicts r p.store u).restrict sel)) ∧
      ∀ v, q.store.resultsValue? v = match rs.lookup v with
        | some res => some (toStore c res ((p.store.results? v).getD .empty) sel).toValue
        | none => p.store.resultsValue? v := by
  obtain ⟨rs', o, heval, h⟩ := Run.run_bind_ok h
  obtain ⟨halike, hrs⟩ := (looks_evaluate r p.store hc sel _).gave rfl heval
  obtain ⟨_, o', hcommit, h⟩ := Run.run_bind_ok h
  cases h
  have hn : (rs.map (·.1)).Nodup := by
    rw [hrs, List.map_map]
    simpa [Function.comp_def] using Sorted.nodup_of_pairwise (Sorted.pairwise_ofList us)
  refine ⟨hrs, ?_⟩
  rw [← halike.store]
  exact run_commit hn hcommit

end Evaluation
end CatalogRules

import CatalogRules.Proofs.Evaluation.Pipeline

/-! # A request between two calls

A request is a committed evaluation that may have company: between two of its calls others may make
theirs. `Stage` says where a request stands, and `Stage.next` makes its next call. What is still to
be done is a computation again (`Stage.rest`), which the calls of the request work off
(`Stage.rest_next`), so that a request without company does what an evaluation does (`rest_asking`).

For the stored results of the entity that a request is about there are two calls that matter: the
one that reads the prior results and the one that stores the merged ones. `Stage.Moves` says what a
call can do, with regard to these (`Stage.moves`). -/

namespace CatalogRules

open Evaluation

/-- The outcomes for an entity. -/
def Evaluation.outcomesFor (rs : Evaluation) (u : Urn) : List Outcome :=
  ((rs.lookup u).getD .empty).outcomes

/-- The stored outcomes of an entity. -/
def Platform.storedFor (p : Platform) (u : Urn) : List Outcome :=
  ((p.store.results? u).getD .empty).outcomes

theorem Platform.storedFor_congr {p q : Platform}
    (h : q.store.resultsValue? = p.store.resultsValue?) (u : Urn) :
    q.storedFor u = p.storedFor u := by
  rw [storedFor, storedFor, Store.results?_eq, Store.results?_eq, h]

/-- Where a request stands: which questions it asks, or that it is about to read the prior results,
which results are to be stored, which actions are to be applied, or what it returned. -/
inductive Stage where
  | asking (t : Inquiry Evaluation)
  | reading (rs : Evaluation)
  | writing (rs todo : Evaluation)
  | acting (rs : Evaluation) (todo : List (Action × List Urn))
  | returned (o : Except Failure Evaluation)

namespace Stage

/-! ### The calls of a request -/

/-- Goes on with what a call gave; a failure ends the request. -/
def proceed {α : Type} (f : α → Stage) : Except Failure α × Platform → Stage × Platform
  | (.ok a, p) => (f a, p)
  | (.error e, p) => (.returned (.error e), p)

/-- Makes the next call. -/
def next (c : Snapshot) (sel : Selection) : Stage → Platform → Stage × Platform
  | .asking (.done (.ok rs)), p => (.reading rs, p)
  | .asking (.done (.error e)), p => (.returned (.error e), p)
  | .asking (.count m t), p => (.asking t, { p with metrics := p.metrics.increment m })
  | .asking (.ask t us names rest), p =>
    proceed (fun found => .asking (rest found)) ((Run.fetchAspects t us names).run p)
  | .reading rs, p => proceed (.writing rs) ((merged c sel rs).run p)
  | .writing rs [], p => (.acting rs (dispatch c rs), p)
  | .writing rs ((u, r) :: todo), p =>
    proceed (fun _ => .writing rs todo) ((Run.persistResult u r).run p)
  | .acting rs [], p => (.returned (.ok rs), p)
  | .acting rs ((a, us) :: todo), p => (.acting rs todo, ((attempt a us).run p).2)
  | .returned o, p => (.returned o, p)

/-- What is still to be done. -/
def rest (c : Snapshot) (sel : Selection) : Stage → Run Evaluation
  | .asking t => t.run >>= fun rs => merged c sel rs >>= finish c rs
  | .reading rs => merged c sel rs >>= finish c rs
  | .writing rs todo => finish c rs todo
  | .acting rs todo => applyAll todo >>= fun _ => pure rs
  | .returned o => fun p => (o, p)

variable {c : Snapshot} {sel : Selection}

/-- **A request without company is a committed evaluation.** -/
theorem rest_asking {r : Registry} {us : List Urn} {t : Inquiry Evaluation}
    (ht : t.run = evaluate r c sel (Sorted.ofList us)) :
    (asking t).rest c sel = run r c sel .full us := by
  rw [run_full_eq, rest, ht]

/-- A call works off what it was the beginning of. -/
theorem rest_next_of_call {α : Type} {s : Stage} {x : Run α} {g : α → Stage} {p : Platform}
    (hrest : s.rest c sel = x >>= fun a => (g a).rest c sel)
    (hnext : s.next c sel p = proceed g (x.run p)) :
    (s.rest c sel).run p = ((s.next c sel p).1.rest c sel).run (s.next c sel p).2 := by
  rw [hrest, hnext, Run.run_bind]
  rcases x.run p with ⟨e | a, q⟩ <;> rfl

/-- An attempt succeeds as such, and leaves the stored results. -/
theorem run_attempt (a : Action) (us : List Urn) (p : Platform) :
    (attempt a us).run p = (.ok (), ((attempt a us).run p).2) ∧
      ((attempt a us).run p).2.store.resultsValue? = p.store.resultsValue? := by
  obtain ⟨q, hrun, -, hresults⟩ := run_applyAll [(a, us)] p
  have hone : applyAll [(a, us)] = (attempt a us >>= fun _ => pure ()) := rfl
  rw [hone, Run.run_bind] at hrun
  rcases ha : (attempt a us).run p with ⟨e | _, o⟩ <;> rw [ha] at hrun <;> cases hrun
  exact ⟨rfl, hresults⟩

/-- **A call of a request works off what is to be done.** -/
theorem rest_next (s : Stage) (p : Platform) :
    (s.rest c sel).run p = ((s.next c sel p).1.rest c sel).run (s.next c sel p).2 := by
  match s with
  | .asking (.done (.ok rs)) => rfl
  | .asking (.done (.error e)) => rfl
  | .asking (.count m t) => rfl
  | .asking (.ask t us names rest) =>
    exact rest_next_of_call (x := Run.fetchAspects t us names)
      (g := fun found => .asking (rest found)) (bind_assoc _ _ _) rfl
  | .reading rs => exact rest_next_of_call (x := merged c sel rs) (g := .writing rs) rfl rfl
  | .writing rs [] => rfl
  | .writing rs ((u, r) :: todo) =>
    refine rest_next_of_call (x := Run.persistResult u r) (g := fun _ => .writing rs todo) ?_ rfl
    show (Run.persistResult u r >>= fun _ => persist todo) >>= _ = _
    exact bind_assoc _ _ _
  | .acting rs [] => rfl
  | .acting rs ((a, us) :: todo) =>
    show ((attempt a us >>= fun _ => applyAll todo) >>= fun _ => pure rs).run p = _
    rw [bind_assoc, Run.run_bind, (run_attempt a us p).1]
    rfl
  | .returned o => rfl

/-- For a single entity, the prior results are read by a single call. -/
theorem merged_single (c : Snapshot) (ids : List String) (u : Urn) (res : Results) :
    merged c (.only ids) [(u, res)] =
      (fun fetched => mergeAll [(u, res)] (storedResults fetched) (ids.filter c.has)) <$>
        Run.fetchAspects u.entityType [u] [Store.resultsAspect] := by
  unfold merged prior
  have htypes : Sorted.ofList ([u].map (·.entityType)) = [u.entityType] := rfl
  have hus : [u].filter (·.entityType = u.entityType) = [u] := by simp
  simp only [List.map_cons, List.map_nil] at htypes ⊢
  rw [htypes, List.foldlM_cons, hus]
  simp

/-! ### What matters to the stored results -/

/-- What a request has done, as far as the stored results are concerned. -/
inductive Phase where
  | fresh
  | pending (rs : Evaluation) (w : Results)
  | wrote (rs : Evaluation)
  | failed

/-- The prior results have not been read (`fresh`), they have been read and others are to be stored
(`pending`), or these have been stored (`wrote`). -/
def phase : Stage → Phase
  | .asking _ | .reading _ => .fresh
  | .writing rs ((_, w) :: _) => .pending rs w
  | .writing rs [] | .acting rs _ | .returned (.ok rs) => .wrote rs
  | .returned (.error _) => .failed

/-- The request is about some tests of one entity. -/
def Sound (c : Snapshot) (ids : List String) (u : Urn) : Stage → Prop
  | .asking t => t.Gives (Answers c (.only ids) [u])
  | .reading rs | .acting rs _ => Answers c (.only ids) [u] rs
  | .writing rs todo => Answers c (.only ids) [u] rs ∧ (todo = [] ∨ ∃ w, todo = [(u, w)])
  | .returned _ => True

/-- **What a call of a request can do** about the stored results: nothing, read them, replace them by
what was merged with those that were read, or fail. -/
inductive Moves (c : Snapshot) (ids : List String) (u : Urn) (s : Stage) (p : Platform) (s' : Stage)
    (q : Platform) : Prop
  | quiet (phase : s'.phase = s.phase) (stored : q.storedFor u = p.storedFor u)
  | reads (rs : Evaluation) (w : Results) (before : s.phase = .fresh)
    (after : s'.phase = .pending rs w) (stored : q.storedFor u = p.storedFor u)
    (merged : ∀ o, o ∈ w.outcomes ↔
      o ∈ rs.outcomesFor u ∨ o ∈ p.storedFor u ∧ o.test ∉ ids.filter c.has)
    (tests : ∀ o ∈ rs.outcomesFor u, o.test ∈ ids)
  | writes (rs : Evaluation) (w : Results) (before : s.phase = .pending rs w)
    (after : s'.phase = .wrote rs) (stored : q.storedFor u = w.outcomes)
  | fails (before : ∀ rs, s.phase ≠ .wrote rs) (after : s'.phase = .failed)
    (stored : q.storedFor u = p.storedFor u)

variable {ids : List String} {u : Urn} {rs : Evaluation}

theorem eq_single_of_answers (h : Answers c (.only ids) [u] rs) : ∃ res, rs = [(u, res)] := by
  have hurns := h.urns
  match rs with
  | [] => cases hurns
  | [(v, res)] =>
    cases hurns
    exact ⟨res, rfl⟩
  | _ :: _ :: _ => cases hurns

/-- What asks only leaves the stored results. -/
theorem storedFor_of_inquires {α : Type} {x : Run α} {P : α → Prop} (h : Run.Inquires x P)
    (p : Platform) : (x.run p).2.storedFor u = p.storedFor u := by
  obtain ⟨t, rfl, -⟩ := h
  exact Platform.storedFor_congr (by rw [(t.alike_run p).store]) u

theorem moves_asking (t : Inquiry Evaluation) (p : Platform)
    (h : (asking t).Sound c ids u) :
    Moves c ids u (.asking t) p ((asking t).next c (.only ids) p).1
        ((asking t).next c (.only ids) p).2 ∧
      ((asking t).next c (.only ids) p).1.Sound c ids u := by
  cases t with
  | done o =>
    cases o with
    | ok rs => exact ⟨.quiet rfl rfl, h rs rfl⟩
    | error e => exact ⟨.fails (by simp [phase]) rfl rfl, trivial⟩
  | count m t => exact ⟨.quiet rfl rfl, h⟩
  | ask t us names rest =>
    have hstored := storedFor_of_inquires (u := u) (Run.Inquires.fetchAspects t us names) p
    rw [next]
    rcases hf : (Run.fetchAspects t us names).run p with ⟨e | found, q⟩ <;> rw [hf] at hstored
    · exact ⟨.fails (by simp [phase]) rfl hstored, trivial⟩
    · exact ⟨.quiet rfl hstored, h found⟩

theorem moves_reading (hc : c.Loaded) (p : Platform) (h : (reading rs).Sound c ids u) :
    Moves c ids u (.reading rs) p ((reading rs).next c (.only ids) p).1
        ((reading rs).next c (.only ids) p).2 ∧
      ((reading rs).next c (.only ids) p).1.Sound c ids u := by
  obtain ⟨res, rfl⟩ := eq_single_of_answers h
  have hlookup : outcomesFor [(u, res)] u = res.outcomes := by simp [outcomesFor]
  have hmerge : mergeAll [(u, res)] (storedResults (p.store.fetch [u] [Store.resultsAspect]))
      (ids.filter c.has) =
        [(u, res.mergePrior ((p.store.results? u).getD .empty) (ids.filter c.has))] := by
    simp only [mergeAll, List.map_cons, List.map_nil, lookup_storedResults, List.mem_singleton,
      if_true]
  rw [next, merged_single, ← bind_pure_comp, Run.run_bind, Inquiry.run_fetchAspects]
  cases p.outage? (.fetchAspects u.entityType [u] [Store.resultsAspect]) with
  | some message => exact ⟨.fails (by simp [phase]) rfl rfl, trivial⟩
  | none =>
    dsimp only
    rw [hmerge]
    refine ⟨.reads [(u, res)] _ rfl rfl rfl ?_ ?_, h, .inr ⟨_, rfl⟩⟩
    · intro o
      rw [hlookup]
      exact Results.mem_mergePrior
    · intro o ho
      rw [hlookup] at ho
      exact ((h.results hc _ List.mem_cons_self).1 o ho).2 ids rfl

theorem moves_writing (p : Platform) {todo : Evaluation} (h : (writing rs todo).Sound c ids u) :
    Moves c ids u (.writing rs todo) p ((writing rs todo).next c (.only ids) p).1
        ((writing rs todo).next c (.only ids) p).2 ∧
      ((writing rs todo).next c (.only ids) p).1.Sound c ids u := by
  obtain ⟨hrs, rfl | ⟨w, rfl⟩⟩ := h
  · exact ⟨.quiet rfl rfl, hrs⟩
  · rw [next, run_persistResult_eq]
    cases p.outage? (.persistResult u w) with
    | some message => exact ⟨.fails (by simp [phase]) rfl rfl, trivial⟩
    | none =>
      refine ⟨.writes rs w rfl rfl ?_, hrs, .inl rfl⟩
      show ((Store.results? (p.store.putResults p.now u w) u).getD .empty).outcomes = _
      rw [Store.results?_eq, Store.resultsValue?_putResults, if_pos rfl, Option.bind_some,
        Results.ofValue?_toValue]
      rfl

theorem moves_acting (p : Platform) {todo : List (Action × List Urn)}
    (h : (acting rs todo).Sound c ids u) :
    Moves c ids u (.acting rs todo) p ((acting rs todo).next c (.only ids) p).1
        ((acting rs todo).next c (.only ids) p).2 ∧
      ((acting rs todo).next c (.only ids) p).1.Sound c ids u := by
  match todo with
  | [] => exact ⟨.quiet rfl rfl, trivial⟩
  | (a, us) :: todo =>
    exact ⟨.quiet rfl (Platform.storedFor_congr (run_attempt a us p).2 u), h⟩

/-- **Every call of a request is one of these moves.** -/
theorem moves (hc : c.Loaded) {s : Stage} (h : s.Sound c ids u) (p : Platform) :
    Moves c ids u s p (s.next c (.only ids) p).1 (s.next c (.only ids) p).2 ∧
      (s.next c (.only ids) p).1.Sound c ids u := by
  cases s with
  | asking t => exact moves_asking t p h
  | reading rs => exact moves_reading hc p h
  | writing rs todo => exact moves_writing p h
  | acting rs todo => exact moves_acting p h
  | returned o => exact ⟨.quiet rfl rfl, trivial⟩

end Stage
end CatalogRules

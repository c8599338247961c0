import CatalogRules.Backfill
import CatalogRules.Proofs.Evaluation.Pipeline
import CatalogRules.Proofs.Evaluation.Pointwise
import CatalogRules.Proofs.Recording

/-! # Which fetches are counted

The evaluators that resolve paths count each of their fetches, and so do the checks whether targets
of hops exist; storing, actions, sweeps and searches neither fetch nor count. What is left are the
prior results: a committed evaluation of some of the definitions reads them without counting
(`Evaluation.run_prior`).

A run of the engine is a list of tasks. `Task.fetches_counted` says that over a run the counters go
up by the number of the fetches that are no reads of prior results, and where these come from. -/

namespace CatalogRules

open Run (Counts)

/-! ### Resolving -/

namespace Resolve

variable {evs : List Evaluator} {r : Registry} {nested : Requests → Run Resolution} {t : String}
  {us : List Urn} {ps : List Path}

theorem counts_system : Counts (system r t us ps) := by
  unfold system
  dsimp only
  split_ifs
  · exact .pure _
  · exact .fetch _ _ _ _ fun _ => .pure _

theorem counts_dropMissing : ∀ rs : Requests, Counts (dropMissing evs r rs)
  | [] => .pure _
  | (t, q) :: rest => by
    unfold dropMissing
    split_ifs
    · exact .fetch _ _ _ _ fun _ => (counts_dropMissing rest).bind fun _ => .pure _
    · exact (counts_dropMissing rest).bind fun _ => .pure _

theorem counts_aspect (hn : ∀ rs, Counts (nested rs)) :
    Counts (aspect evs r nested t us ps) := by
  unfold aspect
  dsimp only
  split_ifs
  · exact .pure _
  · refine .fetch _ _ _ _ fun fetched => ?_
    split_ifs
    · exact .pure _
    · exact (counts_dropMissing _).bind fun (requests, _) => (hn requests).bind fun _ => .pure _

theorem counts_evaluator (hn : ∀ rs, Counts (nested rs)) (e : Evaluator) :
    Counts (evaluator evs r nested t us ps e) := by
  cases e with
  | identity => exact .pure _
  | aspect => exact counts_aspect hn
  | system => exact counts_system

theorem counts_request (hn : ∀ rs, Counts (nested rs)) (q : Request) :
    Counts (request evs r nested t q) := by
  unfold request
  split_ifs
  · exact .pure _
  · refine .foldlM (fun res (e, i) => ?_) _ _
    dsimp only
    split_ifs
    · exact .pure _
    · exact (counts_evaluator hn e).bind fun _ => .pure _

theorem counts_requestsWithin : ∀ (fuel : Nat) (rs : Requests),
    Counts (requestsWithin evs r fuel rs)
  | 0, _ => .pure _
  | fuel + 1, _ => .foldlM (fun _ (_, q) =>
      (counts_request (counts_requestsWithin fuel) q).bind fun _ => .pure _) _ _

end Resolve

/-- **Resolving counts its fetches**, those on targets of hops included. -/
theorem counts_resolve (evs : List Evaluator) (r : Registry) (us : List Urn) (ps : List Path) :
    Counts (resolve evs r us ps) := by
  unfold resolve
  split_ifs
  · exact .pure _
  · exact Resolve.counts_requestsWithin _ _

/-! ### Evaluating and committing -/

namespace Evaluation

theorem counts_truth (res : Resolution) (u : Urn) (p : Predicate) :
    Counts (truth res u p) := by
  unfold truth
  split
  · exact .pure _
  · exact .throw _

theorem counts_applicable (r : Registry) (cands : Assignment) :
    Counts (applicable r cands) := by
  refine (counts_resolve _ _ _ _).bind fun res => .mapM (fun (u, ds) => ?_) _
  refine (Counts.filterM (fun d => ?_) ds).bind fun _ => .pure _
  unfold isApplicable
  split
  · exact .pure _
  · exact counts_truth _ _ _

theorem counts_outcomes (r : Registry) (assigned : Assignment) :
    Counts (outcomes r assigned) := by
  refine (counts_resolve _ _ _ _).bind fun res => .mapM (fun (u, ds) => ?_) _
  refine (Counts.foldlM (fun results d => ?_) ds _).bind fun _ => .pure _
  exact (counts_truth _ _ _).bind fun _ => (Counts.count fun _ => rfl).bind fun _ => .pure _

theorem counts_evaluate (r : Registry) (c : Snapshot) (sel : Selection) (us : List Urn) :
    Counts (evaluate r c sel us) :=
  (counts_applicable _ _).bind fun assigned => (counts_outcomes r assigned).bind fun _ =>
    (Counts.forM (fun _ => .count fun _ => rfl) _).bind fun _ => .pure _

theorem counts_persistResult (u : Urn) (res : Results) :
    Counts (Run.persistResult u res) :=
  (Counts.call fun _ => rfl).bind fun _ _ => .of_eq rfl rfl

theorem counts_applyAction (a : Action) (us : List Urn) : Counts (Run.applyAction a us) := by
  refine (Counts.call fun _ => rfl).bind fun _ p => ?_
  show p.Accounts [] ((get >>= _ : Run Unit).run p).2
  rw [Run.run_get_bind]
  cases p.handlers.apply p.now a.kind a.params us p.store <;> exact .of_eq rfl rfl

theorem counts_attempt (a : Action) (us : List Urn) : Counts (attempt a us) :=
  ((counts_applyAction a us).bind fun _ => .pure true).tryCatch (fun _ => .pure false)
    |>.bind fun _ => .count fun _ => rfl

theorem counts_finish (c : Snapshot) (rs stored : Evaluation) :
    Counts (finish c rs stored) :=
  (Counts.forM (fun (u, res) => counts_persistResult u res) stored).bind fun _ =>
    (Counts.forM (fun (a, us) => counts_attempt a us) _).bind fun _ => .pure rs

end Evaluation

/-! ### Prior results -/

/-- The calls up to the first one that is out, if they are logged from some place on. -/
def Outages.upTo (os : Outages) (n : Nat) : List Call → List Call
  | [] => []
  | c :: log => if (os.message? n c).isSome then [c] else c :: os.upTo (n + 1) log

theorem Outages.mem_of_mem_upTo {os : Outages} {c : Call} {log : List Call} {n : Nat}
    (h : c ∈ os.upTo n log) : c ∈ log := by
  induction log generalizing n with
  | nil => exact h
  | cons d log ih =>
    unfold upTo at h
    split_ifs at h
    · exact List.mem_cons.mpr (.inl (List.mem_singleton.mp h))
    · exact List.mem_cons.mpr ((List.mem_cons.mp h).imp_right ih)

namespace Evaluation

/-- The fetch of the prior results of the entities of a type. -/
def priorCall (us : List Urn) (t : String) : Call :=
  .fetchAspects t (us.filter (·.entityType = t)) [Store.resultsAspect]

/-- The fetches of the prior results of some entities: one for each of their types. -/
def priorCalls (us : List Urn) : List Call :=
  (Sorted.ofList (us.map (·.entityType))).map (priorCall us)

/-- **The prior results are read type by type up to the first failure**, and nothing is counted. -/
theorem run_prior (us : List Urn) (p : Platform) :
    ((prior us).run p).2.calls =
        p.calls ++ p.outages.upTo p.calls.length (priorCalls us) ∧
      ((prior us).run p).2.metrics = p.metrics := by
  unfold prior priorCalls
  generalize Sorted.ofList (us.map (·.entityType)) = ts
  generalize ([] : Evaluation) = found
  induction ts generalizing found p with
  | nil => exact ⟨(List.append_nil _).symm, rfl⟩
  | cons t ts ih =>
    rw [List.foldlM_cons, bind_assoc, Run.run_bind, Inquiry.run_fetchAspects, List.map_cons,
      Outages.upTo]
    have hout : (p.outages.message? p.calls.length (priorCall us t)).isSome =
        (p.outage? (priorCall us t)).isSome := rfl
    rw [hout, priorCall]
    cases p.outage? (.fetchAspects t (us.filter (·.entityType = t)) [Store.resultsAspect]) with
    | some message => exact ⟨rfl, rfl⟩
    | none =>
      obtain ⟨hcalls, hmetrics⟩ := ih
        (Inquiry.asked p t (us.filter (·.entityType = t)) [Store.resultsAspect]) _
      refine ⟨hcalls.trans ?_, hmetrics⟩
      rw [Inquiry.asked, List.length_append, List.append_assoc]
      rfl

/-- The reads of prior results in an evaluation: there are some only if it is one of some of the
definitions, which is committed, and if it comes to results. -/
def priorReads (r : Registry) (c : Snapshot) (sel : Selection) (mode : Mode) (us : List Urn)
    (p : Platform) : List Call :=
  match sel, mode, (evaluate r c sel (Sorted.ofList us)).run p with
  | .only _, .full, (.ok _, q) => q.outages.upTo q.calls.length (priorCalls (Sorted.ofList us))
  | _, _, _ => []

/-- The reads of prior results as what they are. -/
theorem of_mem_priorReads {r : Registry} {c : Snapshot} {sel : Selection} {mode : Mode}
    {us : List Urn} {p : Platform} {x : Call} (h : x ∈ priorReads r c sel mode us p) :
    mode = .full ∧ (∃ ids, sel = .only ids) ∧ x ∈ priorCalls (Sorted.ofList us) := by
  unfold priorReads at h
  split at h
  · exact ⟨rfl, ⟨_, rfl⟩, Outages.mem_of_mem_upTo h⟩
  · cases h

/-- **An evaluation counts its fetches but for the reads of prior results.** -/
theorem accounts_run (r : Registry) (c : Snapshot) (sel : Selection) (mode : Mode) (us : List Urn)
    (p : Platform) :
    p.Accounts (priorReads r c sel mode us p) ((run r c sel mode us).run p).2 := by
  have heval : p.Accounts [] ((evaluate r c sel (Sorted.ofList us)).run p).2 :=
    counts_evaluate r c sel (Sorted.ofList us) p
  obtain ⟨t, ht, hgives⟩ := inquires_evaluate r c sel (Sorted.ofList us)
  cases mode with
  | evaluateOnly =>
    have hnone : priorReads r c sel .evaluateOnly us p = [] :=
      List.eq_nil_iff_forall_not_mem.mpr fun x hx => nomatch (of_mem_priorReads hx).1
    rw [hnone]
    exact (counts_evaluate r c sel (Sorted.ofList us)).bind (fun _ => .pure _) p
  | full =>
    rw [run_full_eq, Run.run_bind]
    unfold priorReads
    rcases hrun : (evaluate r c sel (Sorted.ofList us)).run p with ⟨e | rs, q⟩
    · rw [hrun] at heval
      cases sel <;> exact heval
    · have hurns : rs.map (·.1) = Sorted.ofList us :=
        (t.gives_run hgives (p := p) (a := rs) (by rw [ht, hrun])).urns
      rw [hrun] at heval
      cases sel with
      | all => exact heval.trans (counts_finish c rs rs q)
      | only ids =>
        obtain ⟨hcalls, hmetrics⟩ := run_prior (Sorted.ofList us) q
        have hprior := Platform.Accounts.of_calls hcalls hmetrics
        show p.Accounts _ (((merged c (.only ids) rs) >>= finish c rs).run q).2
        unfold merged
        rw [hurns, bind_assoc, Run.run_bind]
        rcases hread : (prior (Sorted.ofList us)).run q with ⟨e | stored, o⟩
        · rw [hread] at hprior
          exact heval.trans hprior
        · rw [hread] at hprior
          have hfinish := counts_finish c rs (mergeAll rs stored (ids.filter c.has)) o
          have h := (heval.trans hprior).trans hfinish
          rwa [List.nil_append, List.append_nil] at h

/-- An evaluation of all definitions counts all of its fetches, in either mode. -/
theorem counts_run_all (r : Registry) (c : Snapshot) (mode : Mode) (us : List Urn) :
    Counts (run r c .all mode us) := by
  intro p
  have hnone : priorReads r c .all mode us p = [] :=
    List.eq_nil_iff_forall_not_mem.mpr fun x hx => nomatch (of_mem_priorReads hx).2.1
  have h := accounts_run r c .all mode us p
  rwa [hnone] at h

end Evaluation

/-! ### Sweeps -/

theorem Run.counts_fetchDefinitions (offset count : Nat) :
    Counts (Run.fetchDefinitions offset count) := by
  refine (Counts.call fun _ => rfl).bind fun _ p => ?_
  show p.Accounts [] ((get >>= _ : Run DefinitionPage).run p).2
  rw [Run.run_get_bind]
  rcases p.definitions with _ | ⟨_ | ⟨_ | page, rest⟩⟩ <;> exact .of_eq rfl rfl

theorem Sweep.counts_within (pageSize : Nat) : ∀ (fuel : Nat) (s : Sweep),
    Counts (within pageSize fuel s)
  | 0, _ => .pure _
  | fuel + 1, s => by
    refine (Run.counts_fetchDefinitions _ _).bind fun page => ?_
    dsimp only
    split_ifs
    · exact .pure _
    · exact counts_within pageSize fuel _

theorem Sweep.counts_run (pageSize : Nat) : Counts (run pageSize) := fun p =>
  counts_within pageSize (pagesLeft p) start p

theorem Cache.counts_load (pageSize : Nat) : Counts (load pageSize) := by
  have hsweep : Counts (tryCatch (Sweep.run pageSize) fun e => do
      Run.count (.cacheRefreshes false)
      throw e) :=
    (Sweep.counts_run pageSize).tryCatch fun e =>
      (Counts.count fun _ => rfl).bind fun _ => .throw e
  exact hsweep.bind fun sweep => (Counts.count fun _ => rfl).bind fun _ =>
    (Counts.gauge (fun _ => rfl) _).bind fun _ => .pure _

namespace Refresher

theorem balances_refresh (r : Refresher) : Balances r.refresh := by
  have hcache : Balances r.cache.refresh := by
    refine Balances.bind (Cache.counts_load r.cache.pageSize) fun answer => ?_
    cases answer <;> exact .pure _
  exact hcache.bind fun _ => .pure _

theorem balances_waitWithin (stop : Nat) : ∀ (fuel : Nat) (r : Refresher),
    Balances (waitWithin stop fuel r)
  | 0, _ => .pure _
  | fuel + 1, r => by
    unfold waitWithin
    split
    · exact .pure _
    · split_ifs
      · exact r.balances_refresh.bind fun _ => balances_waitWithin stop fuel _
      · exact .pure _

theorem balances_wait (r : Refresher) (ms : Nat) : Balances (r.wait ms) :=
  balances_waitWithin _ _ _

theorem balances_invalidate (r : Refresher) : Balances r.invalidate := by
  unfold invalidate
  split
  · exact r.balances_wait _
  · exact r.balances_refresh.bind fun _ => balances_wait _ _

end Refresher

/-! ### Backfills -/

theorem Run.counts_scroll (t : String) (batch : Nat) (cursor : Option String) :
    Counts (Run.scroll t batch cursor) := by
  refine (Counts.call fun _ => rfl).bind fun _ p => ?_
  show p.Accounts [] ((get >>= _ : Run ScrollPage).run p).2
  rw [Run.run_get_bind]
  rcases p.searches.lookup t with _ | _ | ⟨_ | page, rest⟩
  · dsimp only
    cases (p.store.scroll t batch cursor).getD (.error (.search Word.overflow)) <;>
      exact .of_eq rfl rfl
  all_goals exact .of_eq rfl rfl

namespace Backfill

variable {e : Engine} {mode : Mode} {limits : BackfillLimits} {t : String} {size : Nat}

theorem balances_readPage (s : Scroll) : Balances (s.readPage t size) := by
  unfold Scroll.readPage
  split
  · exact .pure _
  · refine Balances.bind (Run.counts_scroll t size _) fun answer => ?_
    split
    · exact .pure _
    · split_ifs <;> exact .pure _

theorem balances_readAhead : ∀ (room : Nat) (s : Scroll), Balances (s.readAhead t size room)
  | 0, _ => .pure _
  | room + 1, s => by
    unfold Scroll.readAhead
    split_ifs
    · exact .pure _
    · exact (balances_readPage s).bind (balances_readAhead room)

theorem counts_evaluateBatch (b : Batch) : Run.Counts (evaluateBatch e mode b) := by
  cases b with
  | error f => exact .throw f
  | ok us => exact (Evaluation.counts_run_all _ _ _ _).bind fun _ => .pure _

theorem balances_drain : ∀ (fuel : Nat) (s : Scroll) (report : BackfillReport),
    Balances (drain e mode limits t fuel s report)
  | 0, _, _ => .pure _
  | fuel + 1, s, report => by
    refine (balances_readAhead _ s).bind fun s => ?_
    split
    · exact .pure _
    · exact Balances.bind (counts_evaluateBatch _) fun _ => balances_drain fuel _ _

theorem balances_backfill : Balances (e.backfill mode limits) :=
  .foldlM (fun report t p => balances_drain (pagesLeft p t) .start report p) _ _

end Backfill

/-! ### Runs of the engine -/

/-- What can be asked of an engine, and changes of the store by others in between. -/
inductive Task where
  | evaluate (sel : Selection) (mode : Mode) (us : List Urn)
  | backfill (mode : Mode) (limits : BackfillLimits)
  | resolve (evs : List Evaluator) (r : Registry) (us : List Urn) (ps : List Path)
  | refresh
  | wait (ms : Nat)
  | invalidate
  | change (f : Store → Store)

namespace Task

/-- Performs a task, whether it fails or not. -/
def perform (e : Engine) : Task → StateM Platform Engine
  | .evaluate sel mode us => do
    let _ ← (e.evaluate sel mode us).run
    return e
  | .backfill mode limits => do
    let _ ← e.backfill mode limits
    return e
  | .resolve evs r us ps => do
    let _ ← (CatalogRules.resolve evs r us ps).run
    return e
  | .refresh => return { e with refresher := (← e.refresher.refresh).2 }
  | .wait ms => return { e with refresher := ← e.refresher.wait ms }
  | .invalidate => return { e with refresher := ← e.refresher.invalidate }
  | .change f => do
    modify fun p => { p with store := f p.store }
    return e

/-- Performs some tasks, one after the other. -/
def performAll (e : Engine) (ks : List Task) : StateM Platform Engine := ks.foldlM perform e

/-- The reads of prior results in a task. -/
def priorReads (e : Engine) (p : Platform) : Task → List Call
  | .evaluate sel mode us => Evaluation.priorReads e.registry e.snapshot sel mode us p
  | _ => []

/-- The reads of prior results in some tasks. -/
def allPriorReads (e : Engine) (p : Platform) : List Task → List Call
  | [] => []
  | k :: ks =>
    let next := (k.perform e).run p
    k.priorReads e p ++ allPriorReads next.1 next.2 ks

/-- **A task counts its fetches but for the reads of prior results.** -/
theorem accounts_perform (e : Engine) (k : Task) (p : Platform) :
    p.Accounts (k.priorReads e p) ((k.perform e).run p).2 := by
  cases k with
  | evaluate sel mode us => exact Evaluation.accounts_run _ _ sel mode us p
  | backfill mode limits => exact Backfill.balances_backfill.bind (fun _ => .pure e) p
  | resolve evs r us ps =>
    exact Balances.bind (counts_resolve evs r us ps) (fun _ => .pure e) p
  | refresh => exact e.refresher.balances_refresh.bind (fun _ => .pure _) p
  | wait ms => exact (e.refresher.balances_wait ms).bind (fun _ => .pure _) p
  | invalidate => exact e.refresher.balances_invalidate.bind (fun _ => .pure _) p
  | change f => exact .of_eq rfl rfl

theorem accounts_performAll (ks : List Task) (e : Engine) (p : Platform) :
    p.Accounts (allPriorReads e p ks) ((performAll e ks).run p).2 := by
  induction ks generalizing e p with
  | nil => exact .refl p
  | cons k ks ih => exact (accounts_perform e k p).trans (ih _ _)

/-- Prior results are read only in committed evaluations of some of the definitions. -/
theorem of_mem_allPriorReads {ks : List Task} {e : Engine} {p : Platform} {x : Call}
    (h : x ∈ allPriorReads e p ks) :
    ∃ ids us, .evaluate (.only ids) .full us ∈ ks ∧
      x ∈ Evaluation.priorCalls (Sorted.ofList us) := by
  induction ks generalizing e p with
  | nil => cases h
  | cons k ks ih =>
    rcases List.mem_append.mp h with h | h
    · cases k with
      | evaluate sel mode us =>
        obtain ⟨rfl, ⟨ids, rfl⟩, hx⟩ := Evaluation.of_mem_priorReads h
        exact ⟨ids, us, List.mem_cons_self, hx⟩
      | _ => cases h
    · obtain ⟨ids, us, hk, hx⟩ := ih h
      exact ⟨ids, us, List.mem_cons_of_mem _ hk, hx⟩

/-- **The counters miss the reads of prior results and nothing else.** Whatever is stored, whatever
is asked for and whichever calls fail: the fetches from any entity types, be they all types or a
single one, are as many as their counters went up by, and the reads of prior results in addition.
These are among the calls; each of them belongs to a committed evaluation of some of the
definitions. Without such an evaluation every fetch is counted. -/
theorem fetches_counted (ks : List Task) (e : Engine) (p : Platform) :
    let q := ((performAll e ks).run p).2
    let apart := allPriorReads e p ks
    (∃ log, q.calls = p.calls ++ log ∧ apart.Sublist log ∧ ∀ P,
      fetchCount P log + p.metrics.fetches P = q.metrics.fetches P + fetchCount P apart) ∧
    (∀ c ∈ apart, ∃ ids us, .evaluate (.only ids) .full us ∈ ks ∧
      c ∈ Evaluation.priorCalls (Sorted.ofList us)) ∧
    ((∀ ids us, .evaluate (.only ids) .full us ∉ ks) → apart = []) := by
  refine ⟨accounts_performAll ks e p, fun c => of_mem_allPriorReads, fun hks => ?_⟩
  refine List.eq_nil_iff_forall_not_mem.mpr fun c hc => ?_
  obtain ⟨ids, us, hmem, -⟩ := of_mem_allPriorReads hc
  exact hks ids us hmem

/-- A backfill and an evaluation that is not committed count all of their fetches. -/
theorem fetches_counted_backfill :
    let e : Engine := ⟨.ofOwners, ⟨⟨1, .ofOwned⟩, 0, none⟩⟩
    let p := Platform.ofStore .ofOwners [] 0
    let ks := [.backfill .full ⟨1, 1⟩, .evaluate (.only ["owned"]) .evaluateOnly [.thing]]
    let q := ((performAll e ks).run p).2
    (∀ ids us, .evaluate (.only ids) .full us ∉ ks) ∧
      ∀ P, fetchCount P q.calls = q.metrics.fetches P := by
  intro e p ks q
  have hks : ∀ ids us, .evaluate (.only ids) .full us ∉ ks := by simp [ks]
  obtain ⟨⟨log, hcalls, -, hcount⟩, -, hnone⟩ := fetches_counted ks e p
  refine ⟨hks, fun P => ?_⟩
  have h := hcount P
  have hstart : p.metrics.fetches P = 0 := rfl
  rw [hnone hks, fetchCount_nil, hstart, Nat.add_zero, Nat.add_zero] at h
  rw [hcalls, fetchCount_append, h]
  exact Nat.zero_add _

/-- **A fetch that is not counted**: a committed evaluation of one definition fetches the owner of the
thing, the person, and then the prior results of the thing. -/
theorem prior_read_not_counted :
    let e : Engine := ⟨.ofOwners, ⟨⟨1, .ofOwned⟩, 0, none⟩⟩
    let p := Platform.ofStore .ofOwners [] 0
    let q := ((performAll e [.evaluate (.only ["owned"]) .full [.thing]]).run p).2
    p.calls = [] ∧ p.metrics = [] ∧
      fetchCount (fun _ => true) q.calls = 3 ∧ q.metrics.fetches (fun _ => true) = 2 ∧
      fetchCount (· = "thing") q.calls = 2 ∧ q.metrics.fetches (· = "thing") = 1 := by
  decide +kernel

end Task
end CatalogRules

import CatalogRules.Proofs.Evaluation.Failures
import CatalogRules.Proofs.Evaluation.Inquiring

/-! # The course of an evaluation

An evaluation that is committed first asks the store, then stores the results of one entity after
the other, and then applies the actions. `Evaluation.Course` says how far it may get: it ends before
anything is stored (`unread`), or with the first results that cannot be stored (`unwritten`), or it
goes through (`applied`); whichever it is depends on the first call that is out.

Actions come last and their failures are not noticed, so that two platforms on which different
actions fail see the same calls and give and store the same results (`Evaluation.same_full`).
`Engine.evaluate_course` puts this together, with the evaluation that is not committed beside it. -/

namespace CatalogRules

/-- The call that stores the results of an entity. -/
def Call.ofWrite (w : Urn × Results) : Call := .persistResult w.1 w.2

/-- The call that applies an action. -/
def Call.ofAction (a : Action × List Urn) : Call := .applyAction a.1.kind a.2 a.1.params

/-- Stores the results of some entities, one after the other. -/
def Store.write (s : Store) (now : Int) (ws : Evaluation) : Store :=
  ws.foldl (fun s w => s.putResults now w.1 w.2) s

/-! ### The calls that fail -/

theorem Outages.hit_append (os : Outages) (log log' : List Call) : ∀ n : Nat,
    os.Hit n (log ++ log') ↔ os.Hit n log ∨ os.Hit (n + log.length) log' := by
  induction log with
  | nil => simp [Hit]
  | cons c log ih =>
    intro n
    rw [List.cons_append, Hit, Hit, ih, or_assoc, List.length_cons, Nat.add_right_comm]
    rfl

namespace Platform

/-- The platform after some calls that succeeded. -/
structure Follows (p : Platform) (log : List Call) (q : Platform) : Prop where
  calls : q.calls = p.calls ++ log
  outages : q.outages = p.outages
  succeeded : ¬ p.Out log

variable {p q : Platform} {log : List Call}

theorem Follows.out_append (h : p.Follows log q) (log' : List Call) :
    p.Out (log ++ log') ↔ q.Out log' := by
  unfold Out
  rw [Outages.hit_append, h.outages, h.calls, List.length_append]
  exact or_iff_right h.succeeded

theorem Follows.trans {o : Platform} {log' : List Call} (h : p.Follows log q)
    (k : q.Follows log' o) : p.Follows (log ++ log') o where
  calls := by rw [k.calls, h.calls, List.append_assoc]
  outages := k.outages.trans h.outages
  succeeded := fun ho => k.succeeded ((h.out_append log').mp ho)

/-- The platform after the results of some entities were stored. -/
def wrote (p : Platform) (ws : Evaluation) : Platform :=
  { p with calls := p.calls ++ ws.map Call.ofWrite, store := p.store.write p.now ws }

end Platform

theorem Inquiry.follows_run {α : Type} {t : Inquiry α} {p q : Platform} {a : α}
    (h : t.run.run p = (.ok a, q)) : ∃ log, (∀ c ∈ log, c.sort = .fetchAspects) ∧
      p.Follows log q := by
  obtain ⟨log, hlog, hsort, hout⟩ := t.log_run p
  have halike := t.alike_run p
  rw [h] at hlog hout halike
  exact ⟨log, hsort, hlog, halike.outages, fun ho => by
    obtain ⟨e, he⟩ := hout ho
    cases he⟩

/-! ### Storing -/

namespace Evaluation

theorem run_persistResult_eq (u : Urn) (r : Results) (p : Platform) :
    (Run.persistResult u r).run p = match p.outage? (.persistResult u r) with
      | some message =>
        (.error (.persist message), { p with calls := p.calls ++ [.persistResult u r] })
      | none => (.ok (), p.wrote [(u, r)]) := by
  unfold Run.persistResult
  rw [Run.run_bind, Run.run_call]
  cases p.outage? (.persistResult u r) <;> rfl

/-- **Storing goes on up to the first results that cannot be stored.** -/
theorem run_persist_eq (ws : Evaluation) (p : Platform) :
    ((persist ws).run p = (.ok (), p.wrote ws) ∧ ¬ p.Out (ws.map Call.ofWrite)) ∨
    ∃ done w rest message, ws = done ++ w :: rest ∧ ¬ p.Out (done.map Call.ofWrite) ∧
      p.Out ((done ++ [w]).map Call.ofWrite) ∧
      (persist ws).run p = (.error (.persist message),
        { p.wrote done with calls := p.calls ++ (done ++ [w]).map Call.ofWrite }) := by
  induction ws generalizing p with
  | nil =>
    refine Or.inl ⟨?_, id⟩
    show (_, p) = (_, p.wrote [])
    rw [Platform.wrote, List.map_nil, List.append_nil]
    rfl
  | cons w ws ih =>
    obtain ⟨u, r⟩ := w
    have hrun : (persist ((u, r) :: ws)).run p =
        (Run.persistResult u r >>= fun _ => persist ws).run p := rfl
    rw [hrun, Run.run_bind, run_persistResult_eq]
    cases ho : p.outage? (.persistResult u r) with
    | some message =>
      refine Or.inr ⟨[], (u, r), ws, message, rfl, id, Or.inl ?_, rfl⟩
      show (p.outage? (.persistResult u r)).isSome = true
      rw [ho]
      rfl
    | none =>
      -- the first call succeeds, and the others follow it
      have hfollows : p.Follows [.persistResult u r] (p.wrote [(u, r)]) := by
        refine ⟨rfl, rfl, ?_⟩
        rintro (h | h)
        · rw [← Platform.outage?, ho] at h
          cases h
        · exact h
      have hwrote (l : Evaluation) : (p.wrote [(u, r)]).wrote l = p.wrote ((u, r) :: l) := by
        simp only [Platform.wrote, List.map_cons, List.map_nil, List.append_assoc]
        rfl
      have hout (l : Evaluation) : p.Out (((u, r) :: l).map Call.ofWrite) ↔
          (p.wrote [(u, r)]).Out (l.map Call.ofWrite) := hfollows.out_append _
      rcases ih (p.wrote [(u, r)]) with ⟨hok, hnot⟩ | ⟨done, w, rest, message, rfl, hnot, hat, herr⟩
      · exact Or.inl ⟨hok.trans (by rw [hwrote]), mt (hout ws).mp hnot⟩
      · refine Or.inr ⟨(u, r) :: done, w, rest, message, rfl, mt (hout done).mp hnot,
          (hout (done ++ [w])).mpr hat, herr.trans ?_⟩
        rw [hwrote]
        simp only [Platform.wrote, List.cons_append, List.map_cons, List.map_nil, List.append_assoc]
        rfl

/-! ### Applying actions -/

theorem calls_attempt (a : Action) (us : List Urn) (p : Platform) :
    ((attempt a us).run p).2.calls = p.calls ++ [Call.ofAction (a, us)] := by
  -- whether the call is out, or the handler fails, nothing else is logged
  have happly : ((Run.applyAction a us).run p).2.calls = p.calls ++ [Call.ofAction (a, us)] := by
    unfold Run.applyAction
    rw [Run.run_bind, Run.run_call]
    cases p.outage? (.applyAction a.kind us a.params) with
    | some message => rfl
    | none =>
      dsimp only
      rw [Run.run_get_bind]
      dsimp only
      cases p.handlers.apply p.now a.kind a.params us p.store <;> rfl
  unfold attempt
  rw [Run.run_bind, Run.run_tryCatch, Run.run_bind]
  rcases ha : (Run.applyAction a us).run p with ⟨_ | _, q⟩ <;> rw [ha] at happly <;> exact happly

/-- **All actions are tried, whichever of them fail.** -/
theorem run_applyAll (todo : List (Action × List Urn)) (p : Platform) :
    ∃ q, (applyAll todo).run p = (.ok (), q) ∧ q.calls = p.calls ++ todo.map Call.ofAction ∧
      q.store.resultsValue? = p.store.resultsValue? := by
  have hcalls : ((applyAll todo).run p).2.calls = p.calls ++ todo.map Call.ofAction := by
    induction todo generalizing p with
    | nil => exact (List.append_nil _).symm
    | cons a todo ih =>
      have hrun : (applyAll (a :: todo)).run p =
          (attempt a.1 a.2 >>= fun _ => applyAll todo).run p := rfl
      have hone := calls_attempt a.1 a.2 p
      rw [hrun, Run.run_bind]
      rcases ha : (attempt a.1 a.2).run p with ⟨e | _, q⟩
      · exact absurd (fails_applyAll [a] p e (by
          show ((attempt a.1 a.2 >>= fun _ => applyAll []).run p).1 = _
          rw [Run.run_bind, ha])) (List.not_mem_nil)
      · rw [ha] at hone
        show ((applyAll todo).run q).2.calls = _
        rw [ih q, hone, List.append_assoc, List.map_cons]
        rfl
  have hkeeps := (keeps_applyAll todo p).1
  rcases ha : (applyAll todo).run p with ⟨e | _, q⟩
  · exact absurd (fails_applyAll todo p e (by rw [ha])) List.not_mem_nil
  · rw [ha] at hcalls hkeeps
    exact ⟨q, rfl, hcalls, hkeeps⟩

/-! ### The whole -/

/-- **How a committed evaluation may go**: what it answers and which platform it leaves. -/
inductive Course (c : Snapshot) (us : List Urn) (p : Platform) :
    Except Failure Evaluation → Platform → Prop
  /-- Nothing is stored or applied. -/
  | unread {e : Failure} {q : Platform} (fetches : List Call)
    (sort : ∀ x ∈ fetches, x.sort = .fetchAspects)
    (calls : q.calls = p.calls ++ fetches) (store : q.store = p.store) :
    Course c us p (.error e) q
  /-- The results of the first entities are stored; those of the next one are the first call that is
  out. -/
  | unwritten {message : String} {q : Platform} (fetches : List Call) (stored : Evaluation)
    (w : Urn × Results) (rest : List Urn) (sort : ∀ x ∈ fetches, x.sort = .fetchAspects)
    (urns : stored.map (·.1) ++ w.1 :: rest = Sorted.ofList us)
    (calls : q.calls = p.calls ++ (fetches ++ (stored ++ [w]).map Call.ofWrite))
    (succeeded : ¬ p.Out (fetches ++ stored.map Call.ofWrite))
    (out : p.Out (fetches ++ (stored ++ [w]).map Call.ofWrite))
    (store : q.store = p.store.write p.now stored) : Course c us p (.error (.persist message)) q
  /-- The results of all entities are stored, and all actions are tried after that. -/
  | applied {rs : Evaluation} {q : Platform} (fetches : List Call) (stored : Evaluation)
    (sort : ∀ x ∈ fetches, x.sort = .fetchAspects) (urns : stored.map (·.1) = Sorted.ofList us)
    (calls : q.calls =
      p.calls ++ (fetches ++ stored.map Call.ofWrite ++ (dispatch c rs).map Call.ofAction))
    (succeeded : ¬ p.Out (fetches ++ stored.map Call.ofWrite))
    (results : q.store.resultsValue? = (p.store.write p.now stored).resultsValue?) :
    Course c us p (.ok rs) q

variable {r : Registry} {c : Snapshot} {sel : Selection} {us : List Urn} {p q : Platform}

/-- What a committed evaluation does once it has its results and those that are to be stored. -/
def finish (c : Snapshot) (rs stored : Evaluation) : Run Evaluation := do
  persist stored
  applyAll (dispatch c rs)
  return rs

theorem run_full_eq (r : Registry) (c : Snapshot) (sel : Selection) (us : List Urn) :
    run r c sel .full us =
      evaluate r c sel (Sorted.ofList us) >>= fun rs => merged c sel rs >>= finish c rs := by
  unfold run commit finish
  simp only [bind_assoc]

/-- The course from the moment at which everything has been asked. -/
theorem course_of_follows {fetches : List Call} {rs stored : Evaluation} {o : Platform}
    (hsort : ∀ x ∈ fetches, x.sort = .fetchAspects) (hfollows : p.Follows fetches o)
    (halike : p.Alike o) (hurns : stored.map (·.1) = Sorted.ofList us) :
    Course c us p ((finish c rs stored).run o).1 ((finish c rs stored).run o).2 := by
  unfold finish
  rw [Run.run_bind]
  rcases run_persist_eq stored o with ⟨hrun, hnot⟩ | ⟨done, w, rest, message, rfl, hnot, hat, hrun⟩
  · obtain ⟨q, happly, hcalls, hresults⟩ := run_applyAll (dispatch c rs) (o.wrote stored)
    rw [hrun]
    dsimp only
    rw [Run.run_bind, happly]
    refine .applied fetches stored hsort hurns ?_ (mt (hfollows.out_append _).mp hnot) ?_
    · show q.calls = _
      rw [hcalls, Platform.wrote, hfollows.calls, List.append_assoc, List.append_assoc,
        List.append_assoc]
    · show q.store.resultsValue? = _
      rw [hresults, Platform.wrote, halike.store, halike.now]
  · rw [hrun]
    refine .unwritten fetches done w (rest.map (·.1)) hsort ?_ ?_
      (mt (hfollows.out_append _).mp hnot) ((hfollows.out_append _).mpr hat) ?_
    · rw [← hurns, List.map_append, List.map_cons]
    · show o.calls ++ _ = _
      rw [hfollows.calls, List.append_assoc]
    · show o.store.write o.now done = _
      rw [halike.store, halike.now]

/-- **A committed evaluation goes one of these ways.** -/
theorem course_full (r : Registry) (c : Snapshot) (sel : Selection) (us : List Urn)
    (p : Platform) : Course c us p ((run r c sel .full us).run p).1
      ((run r c sel .full us).run p).2 := by
  obtain ⟨t, ht, hgives⟩ := inquires_evaluate r c sel (Sorted.ofList us)
  obtain ⟨fetches, hcalls, hsort, -⟩ := t.log_run p
  have halike := t.alike_run p
  rw [run_full_eq, ← ht, Run.run_bind]
  rcases heval : t.run.run p with ⟨e | rs, o⟩
  · rw [heval] at hcalls halike
    exact .unread fetches hsort hcalls halike.store
  · have hurns := (t.gives_run hgives (p := p) (a := rs) (by rw [heval])).urns
    rw [heval] at halike
    obtain ⟨fetches, hsort, hfollows⟩ := t.follows_run heval
    obtain ⟨t', ht', hgives'⟩ := inquires_merged c sel rs
    obtain ⟨fetches', hcalls', hsort', -⟩ := t'.log_run o
    have halike' := t'.alike_run o
    dsimp only
    rw [← ht', Run.run_bind]
    rcases hmerge : t'.run.run o with ⟨e | stored, o'⟩
    · rw [hmerge] at hcalls' halike'
      refine .unread (fetches ++ fetches') ?_ ?_ (halike'.store.trans halike.store)
      · exact fun x hx => (List.mem_append.mp hx).elim (hsort x) (hsort' x)
      · rw [hcalls', hfollows.calls, List.append_assoc]
    · have hurns' := t'.gives_run hgives' (p := o) (a := stored) (by rw [hmerge])
      rw [hmerge] at halike'
      obtain ⟨fetches', hsort', hfollows'⟩ := t'.follows_run hmerge
      refine course_of_follows ?_ (hfollows.trans hfollows') (halike.trans halike')
        (hurns'.trans hurns)
      exact fun x hx => (List.mem_append.mp hx).elim (hsort x) (hsort' x)

/-! ### Actions are not noticed -/

end Evaluation

namespace Platform

/-- The platforms have seen the same calls and hold the same results. -/
structure SameResults (p q : Platform) : Prop where
  calls : q.calls = p.calls
  results : q.store.resultsValue? = p.store.resultsValue?

theorem UpToActions.sameResults {p q : Platform} (h : p.UpToActions q) : p.SameResults q :=
  ⟨h.calls, by rw [h.store]⟩

end Platform

namespace Run

variable {α β : Type}

/-- On platforms that differ at most in what is about actions, the computation does the same, and
leaves them related. -/
def Same (R : Platform → Platform → Prop) (x : Run α) : Prop :=
  ∀ p q, p.UpToActions q → (x.run q).1 = (x.run p).1 ∧ R (x.run p).2 (x.run q).2

theorem Same.bind {R : Platform → Platform → Prop} {x : Run α} {f : α → Run β}
    (hx : Same Platform.UpToActions x) (hf : ∀ a, Same R (f a))
    (hR : ∀ p q, p.UpToActions q → R p q) : Same R (x >>= f) := by
  intro p q h
  obtain ⟨hans, hafter⟩ := hx p q h
  rw [run_bind, run_bind]
  rcases hp : x.run p with ⟨e | a, p'⟩ <;> rcases hq : x.run q with ⟨e' | a', q'⟩ <;>
    rw [hp, hq] at hans hafter <;> cases hans
  · exact ⟨rfl, hR _ _ hafter⟩
  · exact hf a p' q' hafter

theorem Inquires.same {x : Run α} {P : α → Prop} (h : Inquires x P) :
    Same Platform.UpToActions x := by
  obtain ⟨t, rfl, -⟩ := h
  exact fun p q hpq => t.same_run hpq

end Run

namespace Evaluation

variable {r : Registry} {c : Snapshot} {sel : Selection} {us : List Urn} {p q : Platform}

theorem same_persistResult (u : Urn) (res : Results) :
    Run.Same Platform.UpToActions (Run.persistResult u res) := by
  intro p q h
  rw [run_persistResult_eq, run_persistResult_eq, h.outage? (by simp [Call.sort])]
  cases p.outage? (.persistResult u res) with
  | some message => exact ⟨rfl, h.store, h.now, by rw [h.calls], h.messages⟩
  | none =>
    refine ⟨rfl, ?_, h.now, ?_, h.messages⟩
    · simp only [Platform.wrote, h.store, h.now]
    · simp only [Platform.wrote, h.calls]

theorem same_persist : ∀ ws : Evaluation, Run.Same Platform.UpToActions (persist ws)
  | [] => fun _ _ h => ⟨rfl, h⟩
  | (u, res) :: ws => by
    show Run.Same _ (Run.persistResult u res >>= fun _ => persist ws)
    exact (same_persistResult u res).bind (fun _ => same_persist ws) fun _ _ h => h

theorem same_finish (c : Snapshot) (rs stored : Evaluation) :
    Run.Same Platform.SameResults (finish c rs stored) := by
  refine (same_persist stored).bind (fun _ p q h => ?_) fun _ _ h => h.sameResults
  obtain ⟨p', hp, hpcalls, hpresults⟩ := run_applyAll (dispatch c rs) p
  obtain ⟨q', hq, hqcalls, hqresults⟩ := run_applyAll (dispatch c rs) q
  rw [Run.run_bind, Run.run_bind, hp, hq]
  refine ⟨rfl, ?_, ?_⟩
  · show q'.calls = p'.calls
    rw [hqcalls, hpcalls, h.calls]
  · show q'.store.resultsValue? = p'.store.resultsValue?
    rw [hqresults, hpresults, h.store]

/-- **A committed evaluation does not notice which actions fail.** -/
theorem same_full (r : Registry) (c : Snapshot) (sel : Selection) (us : List Urn) :
    Run.Same Platform.SameResults (run r c sel .full us) := by
  rw [run_full_eq]
  refine (inquires_evaluate r c sel _).same.bind (fun rs => ?_) fun _ _ h => h.sameResults
  exact (inquires_merged c sel rs).same.bind (fun _ => same_finish c rs _) fun _ _ h => h.sameResults

/-! ### Beside an evaluation that is not committed -/

/-- What a committed evaluation returns is what it evaluated. -/
theorem run_evaluate_of_full {rs : Evaluation} (h : ((run r c sel .full us).run p).1 = .ok rs) :
    ∃ o, (evaluate r c sel (Sorted.ofList us)).run p = (.ok rs, o) ∧
      (commit c sel rs).run o = (.ok (), ((run r c sel .full us).run p).2) := by
  rcases hrun : (run r c sel .full us).run p with ⟨_, q⟩
  rw [hrun] at h
  obtain rfl : _ = Except.ok rs := h
  obtain ⟨rs', o, heval, hrest⟩ := Run.run_bind_ok hrun
  obtain ⟨_, o', hcommit, hpure⟩ := Run.run_bind_ok hrest
  cases hpure
  exact ⟨o, heval, hcommit⟩

/-- What a committed evaluation of all tests returns is what is stored. -/
theorem results?_of_full {rs : Evaluation} {u : Urn} (hu : u ∈ us)
    (h : ((run r c .all .full us).run p).1 = .ok rs) :
    ∃ res, rs.lookup u = some res ∧
      ((run r c .all .full us).run p).2.store.results? u = some res := by
  obtain ⟨o, heval, hcommit⟩ := run_evaluate_of_full h
  obtain ⟨t, ht, hgives⟩ := inquires_evaluate r c .all (Sorted.ofList us)
  have hurns : rs.map (·.1) = Sorted.ofList us :=
    (t.gives_run hgives (p := p) (by rw [ht, heval])).urns
  have hn : (rs.map (·.1)).Nodup := by
    rw [hurns]
    exact Sorted.nodup_of_pairwise (Sorted.pairwise_ofList us)
  have hmem : u ∈ rs.map (·.1) := by
    rw [hurns]
    exact Sorted.mem_ofList.mpr hu
  cases hres : rs.lookup u with
  | none => exact absurd hmem (lookup_eq_none.mp hres)
  | some res =>
    refine ⟨res, rfl, ?_⟩
    rw [Store.results?_eq, run_commit hn hcommit u, hres]
    exact Results.ofValue?_toValue res

end Evaluation

open Evaluation in
/-- **The course of an evaluation, committed or not, whatever fails.** Asking comes before storing,
storing goes on in order of the entities up to the first failure, and actions come when all is
stored; their failures change nothing but what they would have done. An evaluation that is not
committed only asks, and it returns what a committed one returns. -/
theorem Engine.evaluate_course (e : Engine) (sel : Selection) (us : List Urn) (p : Platform) :
    let full := (e.evaluate sel .full us).run
    let dry := (e.evaluate sel .evaluateOnly us).run p
    ((Sorted.ofList us).Pairwise (· < ·) ∧ ∀ u, u ∈ Sorted.ofList us ↔ u ∈ us) ∧
    Course e.snapshot us p (full p).1 (full p).2 ∧
    (∀ q, p.UpToActions q → (full q).1 = (full p).1 ∧ (full p).2.SameResults (full q).2) ∧
    (dry.2.store = p.store ∧ ∃ fetches, dry.2.calls = p.calls ++ fetches ∧
      ∀ x ∈ fetches, x.sort = .fetchAspects) ∧
    ∀ rs, (full p).1 = .ok rs → dry.1 = .ok rs ∧ (sel = .all → ∀ u ∈ us, ∃ res,
      rs.lookup u = some res ∧ (full p).2.store.results? u = some res) := by
  intro full dry
  have hdry : dry =
      (Evaluation.evaluate e.registry e.snapshot sel (Sorted.ofList us)).run p := by
    rw [← run_evaluateOnly e sel us]
  refine ⟨⟨Sorted.pairwise_ofList us, fun u => Sorted.mem_ofList⟩,
    course_full e.registry e.snapshot sel us p, fun q => same_full e.registry e.snapshot sel us p q,
    ?_, fun rs hrs => ⟨?_, ?_⟩⟩
  · obtain ⟨t, ht, -⟩ := inquires_evaluate e.registry e.snapshot sel (Sorted.ofList us)
    obtain ⟨fetches, hcalls, hsort, -⟩ := t.log_run p
    have halike := t.alike_run p
    rw [ht, ← hdry] at hcalls halike
    exact ⟨halike.store, fetches, hcalls, hsort⟩
  · obtain ⟨o, heval, -⟩ := run_evaluate_of_full hrs
    rw [hdry, heval]
  · rintro rfl u hu
    exact results?_of_full hu hrs

/-- The snapshot of a single definition: owned things are tagged. -/
def Snapshot.ofTagged : Snapshot :=
  .ofDefinitions [⟨"tagged", ["thing"], none, .ofProperty .exists "owner.by.urn",
    ⟨[⟨.addTags, [("values", ["urn:li:tag:owned"])]⟩], []⟩⟩]

theorem Engine.evaluate_tagged :
    let e : Engine := ⟨.ofOwners, ⟨⟨1, .ofTagged⟩, 0, none⟩⟩
    let p := Platform.ofStore .ofOwners [.addTags] 0
    let q := { p with outages := [(⟨.applyAction, .place 3⟩, "down")] }
    let full := (e.evaluate .all .full [.thing]).run
    p.UpToActions q ∧ ((full p).2.store.aspect? .thing "globalTags").isSome = true ∧
      ((full q).2.store.aspect? .thing "globalTags").isSome = false ∧
      (full q).1 = .ok [(.thing, ⟨[⟨"tagged", .success⟩], []⟩)] ∧
      (full q).2.store.results? .thing = some ⟨[⟨"tagged", .success⟩], []⟩ := by
  intro e p q full
  have hpq : p.UpToActions q := by
    refine ⟨rfl, rfl, rfl, fun n c hc => ?_⟩
    cases c <;> first | rfl | exact absurd rfl hc
  obtain ⟨hsome, htagged, huntagged⟩ :
      (full p).1.toOption = some [(.thing, ⟨[⟨"tagged", .success⟩], []⟩)] ∧
        ((full p).2.store.aspect? .thing "globalTags").isSome = true ∧
        ((full q).2.store.aspect? .thing "globalTags").isSome = false := by decide +kernel
  have hok : (full p).1 = .ok [(.thing, ⟨[⟨"tagged", .success⟩], []⟩)] := by
    cases hfull : (full p).1 with
    | error failure =>
      rw [hfull] at hsome
      cases hsome
    | ok rs =>
      rw [hfull] at hsome
      cases hsome
      rfl
  obtain ⟨-, -, hsame, -, hcommitted⟩ := evaluate_course e .all [.thing] p
  obtain ⟨hanswer, hresults⟩ := hsame q hpq
  obtain ⟨res, hlookup, hstored⟩ := (hcommitted _ hok).2 rfl .thing List.mem_cons_self
  cases hlookup
  refine ⟨hpq, htagged, huntagged, hanswer.trans hok, ?_⟩
  rw [Store.results?_eq, hresults.results, ← Store.results?_eq]
  exact hstored

end CatalogRules

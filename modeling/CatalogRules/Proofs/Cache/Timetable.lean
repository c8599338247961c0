import CatalogRules.Proofs.Cache.Timing

/-! # Refreshers and their loops

A refresher that follows a script goes through a history of a loop, in which the requests of the
script come at their instants (`RefreshLoop.follows`). In a history like this an invalidation has
its effect at once, whichever branches are taken (`RefreshLoop.Timely.prompt`), since time is given
to it before the next request. `Refresher.keeps_time` puts together what is known of loops. -/

namespace CatalogRules

/-! ### Scripts -/

namespace Refresher

/-- What may be asked of a refresher. -/
inductive Request where
  | sleep (ms : Nat)
  | invalidate
  | refresh
  | shutdown
  deriving DecidableEq

/-- Does what is asked for. -/
def perform (r : Refresher) : Request → StateM Platform Refresher
  | .sleep ms => r.wait ms
  | .invalidate => r.invalidate
  | .refresh => do
    let (_, r) ← r.refresh
    return r
  | .shutdown => return r.shutdown

/-- Does what is asked for, one after the other. -/
def follow (r : Refresher) (script : List Request) : StateM Platform Refresher :=
  script.foldlM perform r

/-- The time that is given to a request. -/
def Request.span : Request → Nat
  | .sleep ms => ms
  | .invalidate => settling
  | .refresh | .shutdown => 0

/-- The time that is given to a script. -/
def Request.total : List Request → Nat
  | [] => 0
  | q :: script => q.span + total script

/-- The requests of a script with their instants, without the sleeps. -/
def timetable (now : Nat) : List Request → List (Nat × Request)
  | [] => []
  | .sleep ms :: script => timetable (now + ms) script
  | q :: script => (now, q) :: timetable (now + q.span) script

end Refresher

namespace RefreshLoop

open Refresher (Request settling)

variable {l m l' : RefreshLoop} {es : Trace}

/-- The request that an event is. -/
def Event.request? : Event → Option Request
  | .invalidated => some .invalidate
  | .refreshed _ => some .refresh
  | .shutdown => some .shutdown
  | _ => none

/-- The requests with their instants. -/
def Trace.requests (es : Trace) : List (Nat × Request) :=
  es.filterMap fun x => x.2.request?.map (x.1, ·)

/-- The loop of a refresher. There is nothing to be done now, unless the refresher was shut down. -/
inductive Shows : RefreshLoop → Refresher → Platform → Prop
  | running {c : Cache} {p : Platform} {now : Nat} {s : Schedule} (soon : now < s.due)
    (pos : 0 < s.interval) : Shows ⟨c, p, now, s, false, false, .selecting⟩ ⟨c, now, some s⟩ p
  | ended {c : Cache} {p : Platform} {now : Nat} {s : Schedule} {permit : Bool} :
    Shows ⟨c, p, now, s, permit, true, .ended⟩ ⟨c, now, none⟩ p

theorem Shows.platform {r : Refresher} {p : Platform} (h : l.Shows r p) : l.platform = p := by
  cases h <;> rfl

/-- The refresher goes through a history of the loop, in which there are the given requests. -/
def Follows (l : RefreshLoop) (x : StateM Platform Refresher) (qs : List (Nat × Request))
    (ms : Nat) : Prop :=
  ∃ es l', l.Runs es l' ∧ l'.Shows (x.run l.platform).1 (x.run l.platform).2 ∧ es.requests = qs ∧
    l'.clock = l.clock + ms

theorem requests_append (es es' : Trace) :
    Trace.requests (es ++ es') = es.requests ++ es'.requests := List.filterMap_append

/-- Something happens first, and the refresher takes it up from there. -/
theorem Runs.follows {x y : StateM Platform Refresher} {qs : List (Nat × Request)} {ms ms' : Nat}
    (hrun : l.Runs es m) (h : m.Follows y qs ms) (hx : x.run l.platform = y.run m.platform)
    (hms : m.clock + ms = l.clock + ms') : l.Follows x (es.requests ++ qs) ms' := by
  obtain ⟨es', l', hrun', hshows, rfl, hclock⟩ := h
  refine ⟨es ++ es', l', runs_append.mpr ⟨m, hrun, hrun'⟩, ?_, requests_append es es', ?_⟩
  · rwa [hx]
  · rw [hclock, hms]

variable {c : Cache} {p : Platform} {now stop : Nat} {s : Schedule}

/-- The loop is idle up to some instant. -/
theorem step_elapse (hsoon : now < s.due) (hnow : now ≤ stop) (hstop : stop ≤ s.due) :
    Step ⟨c, p, now, s, false, false, .selecting⟩ .elapsed
      ⟨c, p, stop, s, false, false, .selecting⟩ := by
  obtain ⟨ms, rfl⟩ := Nat.exists_eq_add_of_le hnow
  exact .elapse ms (.inr ⟨rfl, hsoon, rfl, rfl⟩) fun _ => hstop

/-- The refresh is finished at the instant of the attempt. -/
theorem step_finish : Step ⟨c, p, now, s, false, false, .refreshing⟩
    (.finished (c.refresh.run p).1.1)
    ⟨(c.refresh.run p).1.2, (c.refresh.run p).2, now, s, false, false, .selecting⟩ :=
  .finish rfl

/-- A tick is due now. -/
theorem step_tick (hdue : s.due = now) : Step ⟨c, p, now, s, false, false, .selecting⟩ .attempted
    ⟨c, p, now, s.reset now, false, false, .refreshing⟩ := by
  rw [← Schedule.tick_eq_reset hdue]
  exact .tick rfl hdue.le

theorem follows_idle (hsoon : now < s.due) (hnow : now ≤ stop) (hstop : stop < s.due)
    (hpos : 0 < s.interval) : Follows ⟨c, p, now, s, false, false, .selecting⟩
      (pure ⟨c, stop, some s⟩) [] (stop - now) :=
  ⟨_, _, (step_elapse hsoon hnow hstop.le).cons runs_nil, .running hstop hpos, rfl,
    (Nat.add_sub_cancel' hnow).symm⟩

theorem follows_waitWithin (stop : Nat) : ∀ (fuel : Nat) {c : Cache} {p : Platform} {now : Nat}
    {s : Schedule}, now < s.due → now ≤ stop → 0 < s.interval →
    stop < s.due + fuel * s.interval →
    Follows ⟨c, p, now, s, false, false, .selecting⟩
      (Refresher.waitWithin stop fuel ⟨c, now, some s⟩) [] (stop - now)
  | 0, c, p, now, s, hsoon, hnow, hpos, hfuel => by
    exact follows_idle hsoon hnow (by omega) hpos
  | fuel + 1, c, p, now, s, hsoon, hnow, hpos, hfuel => by
    unfold Refresher.waitWithin
    dsimp only
    split_ifs with hdue
    · have hrun : Runs ⟨c, p, now, s, false, false, .selecting⟩ _ _ :=
        (step_elapse hsoon hsoon.le le_rfl).cons ((step_tick rfl).cons (step_finish.cons runs_nil))
      have hrest := follows_waitWithin stop fuel (c := (c.refresh.run p).1.2)
        (p := (c.refresh.run p).2) (s := s.reset s.due) (Nat.lt_add_of_pos_right hpos) hdue hpos
        (by
          rw [Nat.succ_mul] at hfuel
          simp only [Schedule.reset_due, Schedule.reset_interval]
          omega)
      exact hrun.follows hrest rfl (show s.due + (stop - s.due) = now + (stop - now) by omega)
    · exact follows_idle hsoon hnow (by omega) hpos

variable {r : Refresher}

theorem follows_wait (h : l.Shows r p) (ms : Nat) : l.Follows (r.wait ms) [] ms := by
  cases h with
  | ended =>
    exact ⟨_, _, Step.cons (.elapse ms (.inl rfl) fun hmode => absurd rfl hmode) runs_nil, .ended,
      rfl, rfl⟩
  | @running c p now s soon pos =>
    have hlt := Nat.lt_mul_div_succ (now + ms - s.due) pos
    have hfuel : now + ms < s.due + ((now + ms - s.due) / s.interval + 1) * s.interval := by
      rw [Nat.mul_comm]
      omega
    have hwait := follows_waitWithin (c := c) (p := p) _ _ soon (Nat.le_add_right now ms) pos hfuel
    rwa [Nat.add_sub_cancel_left] at hwait

theorem follows_invalidate (h : l.Shows r p) :
    l.Follows r.invalidate [(l.clock, .invalidate)] settling := by
  cases h with
  | @ended c p now s permit =>
    have hstep : Step ⟨c, p, now, s, permit, true, .ended⟩ .invalidated
        ⟨c, p, now, s, permit || !true, true, .ended⟩ := .invalidate
    exact (hstep.cons runs_nil).follows (follows_wait .ended settling) rfl rfl
  | @running c p now s soon pos =>
    have hstep : Step ⟨c, p, now, s, false, false, .selecting⟩ .invalidated
        ⟨c, p, now, s, true, false, .selecting⟩ := .invalidate
    have hnotified : Step ⟨c, p, now, s, true, false, .selecting⟩ .attempted
        ⟨c, p, now, s.reset now, false, false, .refreshing⟩ := .notified rfl rfl
    have hwait : Follows
        ⟨(c.refresh.run p).1.2, (c.refresh.run p).2, now, s.reset now, false, false, .selecting⟩
        (Refresher.wait ⟨(c.refresh.run p).1.2, now, some (s.reset now)⟩ settling) [] settling :=
      follows_wait (.running (s := s.reset now) (Nat.lt_add_of_pos_right pos) pos) settling
    exact (hstep.cons (hnotified.cons (step_finish.cons runs_nil))).follows hwait rfl rfl

theorem follows_refresh (h : l.Shows r p) :
    l.Follows (r.perform .refresh) [(l.clock, .refresh)] 0 := by
  cases h with
  | ended => exact ⟨_, _, Step.refresh.cons runs_nil, .ended, rfl, rfl⟩
  | running soon pos => exact ⟨_, _, Step.refresh.cons runs_nil, .running soon pos, rfl, rfl⟩

theorem follows_shutdown (h : l.Shows r p) :
    l.Follows (pure r.shutdown) [(l.clock, .shutdown)] 0 := by
  cases h with
  | ended => exact ⟨_, _, Step.shutdown.cons runs_nil, .ended, rfl, rfl⟩
  | @running c p now s soon pos =>
    have hstop : Step ⟨c, p, now, s, false, true, .selecting⟩ .ended
        ⟨c, p, now, s, false, true, .ended⟩ := .stop rfl rfl
    exact ⟨_, _, Step.shutdown.cons (hstop.cons runs_nil), .ended, rfl, rfl⟩

/-- **What is asked of a refresher** happens in its loop. -/
theorem follows_perform (h : l.Shows r p) (q : Request) :
    l.Follows (r.perform q) (Refresher.timetable l.clock [q]) q.span := by
  cases q with
  | sleep ms => exact follows_wait h ms
  | invalidate => exact follows_invalidate h
  | refresh => exact follows_refresh h
  | shutdown => exact follows_shutdown h

theorem timetable_cons (q : Request) (script : List Request) :
    Refresher.timetable now (q :: script) =
      Refresher.timetable now [q] ++ Refresher.timetable (now + q.span) script := by
  cases q <;> rfl

/-- **A refresher that follows a script** goes through a history of its loop. -/
theorem follows_follow (script : List Request) {l : RefreshLoop} {r : Refresher}
    (h : l.Shows r l.platform) : l.Follows (r.follow script)
      (Refresher.timetable l.clock script) (Request.total script) := by
  induction script generalizing l r with
  | nil => exact ⟨[], l, rfl, h, rfl, rfl⟩
  | cons q script ih =>
    obtain ⟨es, m, hrun, hshows, hes, hclock⟩ := follows_perform h q
    have hplatform : m.platform = ((r.perform q).run l.platform).2 := hshows.platform
    rw [← hplatform] at hshows
    have hrest := ih hshows
    rw [timetable_cons, ← hes, ← hclock]
    refine hrun.follows hrest ?_ ?_
    · rw [hplatform]
      rfl
    · rw [hclock, Request.total, Nat.add_assoc]

theorem follows_start (pageSize seconds : Nat) (p : Platform) :
    (start pageSize seconds p).Follows (Refresher.start pageSize seconds) [] settling := by
  have hpos := Refresher.intervalOf_pos seconds
  let s : Schedule := ⟨Refresher.intervalOf seconds, Refresher.intervalOf seconds⟩
  let r := (Cache.ofPageSize pageSize).refresh.run p
  have htick : (start pageSize seconds p).Step .attempted
      ⟨.ofPageSize pageSize, p, 0, s, false, false, .refreshing⟩ := by
    have htick : Step _ _ _ := step_tick (c := .ofPageSize pageSize) (p := p)
      (s := ⟨Refresher.intervalOf seconds, 0⟩) rfl
    rw [Schedule.reset, Nat.zero_add] at htick
    exact htick
  have hwait : Follows ⟨r.1.2, r.2, 0, s, false, false, .selecting⟩
      (Refresher.wait ⟨r.1.2, 0, some s⟩ settling) [] settling :=
    follows_wait (.running hpos hpos) settling
  exact (htick.cons (step_finish.cons runs_nil)).follows hwait rfl rfl

/-- **A refresher that is started and then follows a script** goes through a history of its loop. -/
theorem follows (pageSize seconds : Nat) (p : Platform) (script : List Request) :
    (start pageSize seconds p).Follows
      (do let r ← Refresher.start pageSize seconds; r.follow script)
      (Refresher.timetable settling script) (settling + Request.total script) := by
  obtain ⟨es, m, hrun, hshows, hes, hclock⟩ := follows_start pageSize seconds p
  have hplatform := hshows.platform
  rw [← hplatform] at hshows
  have hrest := follows_follow script hshows
  have hsettling : m.clock = settling := hclock.trans (Nat.zero_add _)
  rw [hsettling] at hrest
  have hclock : m.clock + Request.total script = (start pageSize seconds p).clock +
      (settling + Request.total script) := by
    rw [hsettling]
    exact (Nat.zero_add _).symm
  have h := hrun.follows (x := do let r ← Refresher.start pageSize seconds; r.follow script) hrest
    (by rw [hplatform]; rfl) hclock
  rwa [hes] at h

/-! ### Histories that follow a script -/

theorem mem_requests {t : Nat} {e : Event} {q : Request} (h : (t, e) ∈ es)
    (hq : e.request? = some q) : (t, q) ∈ es.requests :=
  List.mem_filterMap.mpr ⟨(t, e), h, by simp [hq]⟩

theorem of_mem_requests {t : Nat} {q : Request} (h : (t, q) ∈ es.requests) :
    ∃ e, (t, e) ∈ es ∧ e.request? = some q := by
  obtain ⟨⟨s, e⟩, hmem, hq⟩ := List.mem_filterMap.mp h
  obtain ⟨q', hq', heq⟩ := Option.map_eq_some_iff.mp hq
  cases heq
  exact ⟨e, hmem, hq'⟩

theorem eq_of_mem_timetable_single {x : Nat × Request} {q : Request}
    (h : x ∈ Refresher.timetable now [q]) : x = (now, q) := by
  cases q with
  | sleep ms => cases h
  | invalidate => exact List.mem_singleton.mp h
  | refresh => exact List.mem_singleton.mp h
  | shutdown => exact List.mem_singleton.mp h

/-- A request comes at its instant or later, and it is given its time. -/
theorem of_mem_timetable {x : Nat × Request} {script : List Request}
    (h : x ∈ Refresher.timetable now script) :
    now ≤ x.1 ∧ x.1 + x.2.span ≤ now + Request.total script := by
  induction script generalizing now with
  | nil => cases h
  | cons q script ih =>
    rw [timetable_cons] at h
    rw [Request.total]
    rcases List.mem_append.mp h with h | h
    · rw [eq_of_mem_timetable_single h]
      exact ⟨le_rfl, by simp only; omega⟩
    · have := ih h
      omega

theorem pairwise_timetable (now : Nat) (script : List Request) :
    (Refresher.timetable now script).Pairwise fun x y => x.1 + x.2.span ≤ y.1 := by
  induction script generalizing now with
  | nil => exact .nil
  | cons q script ih =>
    rw [timetable_cons, List.pairwise_append]
    refine ⟨?_, ih _, fun x hx y hy => ?_⟩
    · cases q <;> simp [Refresher.timetable]
    · rw [eq_of_mem_timetable_single hx]
      exact (of_mem_timetable hy).1

/-- The loop attempts a refresh when it is started, and it does so at the instant of an invalidation
that reaches it, afterwards. -/
def Trace.Prompt (es : Trace) : Prop :=
  (0, .attempted) ∈ es ∧ ∀ (before after : Trace) t, es = before ++ (t, .invalidated) :: after →
    (∀ s, (s, .shutdown) ∉ before) → (t, .attempted) ∈ after

/-- **A history that follows a script is prompt**, whichever branches are taken. -/
theorem Timely.prompt {interval : Nat} {script : List Request} (h : Timely interval es l)
    (hes : es.requests = Refresher.timetable settling script)
    (hclock : l.clock = settling + Request.total script) : es.Prompt := by
  have hsettling : 0 < settling := by decide
  constructor
  · refine (h.started (by omega)).resolve_right fun hended => ?_
    obtain ⟨before, after, hsplit⟩ := List.append_of_mem hended
    have hshutdown : (0, .shutdown) ∈ es :=
      hsplit ▸ List.mem_append_left _ (h.ended _ _ _ hsplit).1
    have hmem := mem_requests hshutdown rfl
    rw [hes] at hmem
    have := (of_mem_timetable hmem).1
    omega
  · intro before after t hsplit hrunning
    have hrequests : Refresher.timetable settling script =
        before.requests ++ (t, .invalidate) :: after.requests := by
      rw [← hes, hsplit, requests_append]
      rfl
    -- the next request comes when some time has passed
    have hlater : ∀ y ∈ after.requests, t + settling ≤ y.1 := by
      have hpairwise := pairwise_timetable settling script
      rw [hrequests, List.pairwise_append, List.pairwise_cons] at hpairwise
      exact hpairwise.2.1.1
    have hmem : (t, Request.invalidate) ∈ Refresher.timetable settling script := by
      rw [hrequests]
      exact List.mem_append_right _ List.mem_cons_self
    have hlt : t < l.clock := by
      have : t + settling ≤ _ := (of_mem_timetable hmem).2
      omega
    refine (h.invalidated _ _ _ hsplit hrunning hlt).resolve_right fun hended => ?_
    obtain ⟨between, rest, hafter⟩ := List.append_of_mem hended
    have hshutdown := (h.ended (before ++ (t, .invalidated) :: between) rest t
      (by rw [hsplit, hafter]; simp)).1
    rcases List.mem_append.mp hshutdown with hshutdown | hshutdown
    · exact hrunning t hshutdown
    · have hshutdown : (t, .shutdown) ∈ after := by
        rw [hafter]
        exact List.mem_append_left _ ((List.mem_cons.mp hshutdown).resolve_left nofun)
      have : t + settling ≤ t := hlater _ (mem_requests hshutdown rfl)
      omega

end RefreshLoop

open RefreshLoop in
/-- **The timing of a refresher's loop**, whichever branches are taken and whatever fails. All
histories are timely, and prompt if they follow a script. Refreshes that fail leave the cache, and
what is no refresh leaves the platform. The refreshes that someone else asks for leave the timing. A
refresher that follows a script goes through one of these histories. -/
theorem Refresher.keeps_time (pageSize seconds : Nat) (p : Platform) :
    (∀ es l, (RefreshLoop.start pageSize seconds p).Runs es l → Timely (intervalOf seconds) es l ∧
      ∀ script, es.requests = timetable settling script →
        l.clock = settling + Request.total script → es.Prompt) ∧
    (∀ l es l', RefreshLoop.Runs l es l' → (∀ x ∈ es, ¬ x.2.Succeeds) → l'.cache = l.cache) ∧
    (∀ l es l', RefreshLoop.Runs l es l' → (∀ x ∈ es, ¬ x.2.UsesPlatform) →
      l'.platform = l.platform) ∧
    (∀ l es l', RefreshLoop.Runs l es l' →
      ∃ s, l.Runs (es.map fun x => (x.1, x.2.hush)) (l'.withSnapshot s)) ∧
    ∀ script, (RefreshLoop.start pageSize seconds p).Follows
      (do let r ← Refresher.start pageSize seconds; r.follow script)
      (timetable settling script) (settling + Request.total script) := by
  refine ⟨fun es l h => ?_, fun l es l' h => h.cache_of_not_succeeds,
    fun l es l' h => h.platform_of_not_uses, fun l es l' h => h.hush l.cache.snapshot,
    fun script => follows pageSize seconds p script⟩
  have htimely := timely pageSize h
  exact ⟨htimely, fun script hes hclock => htimely.prompt hes hclock⟩

/-- Definitions cannot be fetched. -/
def Platform.ofOutage : Platform :=
  { Platform.ofStore .empty [] 0 with outages := [(⟨.fetchDefinitions, OutageScope.any⟩, "down")] }

open RefreshLoop in
theorem Refresher.keeps_time_ofOutage :
    let l₀ := RefreshLoop.start 1 1 .ofOutage
    let script := [Request.sleep 990, .invalidate, .shutdown, .invalidate]
    (∃ es l, l₀.Runs es l ∧ es.requests = timetable settling script ∧ (0, .attempted) ∈ es ∧
      (1000, .attempted) ∈ es ∧ ∃ s ≤ 1010, (s, .ended) ∈ es) ∧
    ∃ es l, l₀.Runs es l ∧ (0, .attempted) ∈ es ∧ l.cache = .ofPageSize 1 := by
  intro l₀ script
  obtain ⟨hruns, hcache, -, -, hfollows⟩ := keeps_time 1 1 .ofOutage
  constructor
  · obtain ⟨es, l, hrun, -, hes, hclock⟩ := hfollows script
    obtain ⟨htimely, hprompt⟩ := hruns es l hrun
    obtain ⟨hstart, hinvalidated⟩ := hprompt script hes (hclock.trans (Nat.zero_add _))
    have htable : es.requests = [(1000, .invalidate), (1010, .shutdown), (1010, .invalidate)] := hes
    refine ⟨es, l, hrun, hes, hstart, ?_, ?_⟩
    · have hmem : (1000, .invalidate) ∈ es.requests := by simp [htable]
      obtain ⟨e, hmem, he⟩ := of_mem_requests hmem
      obtain rfl : e = .invalidated := by cases e <;> simp_all [Event.request?]
      obtain ⟨before, after, hsplit⟩ := List.append_of_mem hmem
      have hbefore : Trace.requests before = [] := by
        rw [hsplit, requests_append] at htable
        rcases hb : Trace.requests before with _ | ⟨x, xs⟩
        · rfl
        · rw [hb, List.cons_append, List.cons.injEq] at htable
          have hmem : (1000, .invalidate) ∈ xs ++ Trace.requests ((1000, .invalidated) :: after) :=
            List.mem_append_right _ (mem_requests List.mem_cons_self rfl)
          rw [htable.2] at hmem
          simp at hmem
      have hattempted := hinvalidated before after 1000 hsplit fun s hs => by
        have hmem := mem_requests hs rfl
        rw [hbefore] at hmem
        cases hmem
      rw [hsplit]
      exact List.mem_append_right _ (List.mem_cons_of_mem _ hattempted)
    · have hmem : (1010, .shutdown) ∈ es.requests := by simp [htable]
      obtain ⟨e, hmem, he⟩ := of_mem_requests hmem
      obtain rfl : e = .shutdown := by cases e <;> simp_all [Event.request?]
      exact htimely.stopped 1010 hmem (by rw [hclock]; decide)
  · have htick : l₀.Step .attempted _ := .tick rfl (Nat.le_refl 0)
    have hrun : l₀.Runs _ _ := htick.cons ((Step.finish rfl).cons runs_nil)
    refine ⟨_, _, hrun, List.mem_cons_self, hcache _ _ _ hrun ?_⟩
    have hfailed : ((Cache.ofPageSize 1).refresh.run .ofOutage).1.1 =
        .error (.definitionFetch "down") := rfl
    intro x hx
    simp only [List.mem_cons, List.not_mem_nil, or_false] at hx
    rcases hx with rfl | rfl
    · exact id
    · show ¬ Event.Succeeds (.finished ((Cache.ofPageSize 1).refresh.run .ofOutage).1.1)
      rw [hfailed]
      exact id

end CatalogRules

import CatalogRules.Cache.Refresher
import Mathlib.Order.Nat

/-! # The loop behind the refresher

The loop waits for the first of three: a tick of its schedule, a notification, the wish to end it.
Of several that have come it takes any. A tick and a notification have it refresh the cache, and a
notification begins a new interval. A notification that comes while the loop is busy is kept as a
permit. Time passes only when there is nothing to do.

`RefreshLoop.Step` is what can happen to a loop, and what is done with it; `RefreshLoop.Runs` is a
whole history of that, with the instants. The platform may become any other one in between. -/

namespace CatalogRules

namespace Schedule

/-- How late a tick may be without moving the ticks behind it. -/
def tolerance : Nat := 5

/-- The schedule after a tick. -/
def tick (s : Schedule) (now : Nat) : Schedule :=
  { s with due := (if s.due + tolerance < now then now else s.due) + s.interval }

/-- The schedule with a new interval. -/
def reset (s : Schedule) (now : Nat) : Schedule := { s with due := now + s.interval }

theorem tick_eq_reset {s : Schedule} {now : Nat} (h : s.due = now) : s.tick now = s.reset now := by
  subst h
  simp [tick, reset]

@[simp] theorem reset_interval (s : Schedule) (now : Nat) : (s.reset now).interval = s.interval :=
  rfl

@[simp] theorem reset_due (s : Schedule) (now : Nat) : (s.reset now).due = now + s.interval := rfl

end Schedule

/-- A refresh replaces the snapshot if it loads one. -/
theorem Cache.run_refresh_eq (c : Cache) (p : Platform) : c.refresh.run p =
    ((((load c.pageSize).run p).1.map Snapshot.size,
        { c with snapshot := ((load c.pageSize).run p).1.toOption.getD c.snapshot }),
      ((load c.pageSize).run p).2) := by
  unfold refresh
  simp only [StateT.run, Bind.bind, StateT.bind]
  rcases (load c.pageSize).run p with ⟨e | s, q⟩ <;> rfl

/-- What a loop is about. -/
inductive RefreshLoop.Mode where
  | selecting
  | refreshing
  | ended
  deriving DecidableEq

/-- A loop and its surroundings: whether a notification is kept, and whether the loop is to end. -/
structure RefreshLoop where
  cache : Cache
  platform : Platform
  clock : Nat
  schedule : Schedule
  permit : Bool
  stopping : Bool
  mode : RefreshLoop.Mode

namespace RefreshLoop

/-- What happens: the loop attempts a refresh, has finished it, or ends. The others invalidate the
cache, refresh it themselves, shut the loop down, or alter the platform. Or time elapses. -/
inductive Event where
  | attempted
  | finished (answer : Except Failure Nat)
  | ended
  | invalidated
  | refreshed (answer : Except Failure Nat)
  | shutdown
  | altered
  | elapsed

namespace Event

/-- The loop attempts a refresh. -/
def isAttempt : Event → Bool
  | .attempted => true
  | _ => false

/-- The loop does something. -/
def IsOfLoop : Event → Prop
  | .attempted | .finished _ | .ended => True
  | _ => False

/-- A refresh succeeds. -/
def Succeeds : Event → Prop
  | .finished (.ok _) | .refreshed (.ok _) => True
  | _ => False

/-- The platform is used or altered. -/
def UsesPlatform : Event → Prop
  | .finished _ | .refreshed _ | .altered => True
  | _ => False

end Event

/-- What happened, with the instants. -/
abbrev Trace := List (Nat × Event)

/-- The instant of the last attempt. -/
def Trace.lastAttempt (es : Trace) : Option Nat :=
  es.foldl (fun last x => if x.2.isAttempt then some x.1 else last) none

/-- The number of attempts. -/
def Trace.attempts (es : Trace) : Nat := es.countP (·.2.isAttempt)

/-- A loop that has just been started. -/
def start (pageSize seconds : Nat) (p : Platform) : RefreshLoop :=
  ⟨.ofPageSize pageSize, p, 0, ⟨Refresher.intervalOf seconds, 0⟩, false, false, .selecting⟩

/-- Refreshes the cache. -/
def refresh (l : RefreshLoop) : Except Failure Nat × RefreshLoop :=
  let r := l.cache.refresh.run l.platform
  (r.1.1, { l with cache := r.1.2, platform := r.2 })

/-- There is nothing to do. -/
def Idle (l : RefreshLoop) : Prop :=
  l.mode = .ended ∨
    l.mode = .selecting ∧ l.clock < l.schedule.due ∧ l.permit = false ∧ l.stopping = false

/-- **What can happen.** Who invalidates a cache whose loop was shut down has no effect. -/
inductive Step (l : RefreshLoop) : Event → RefreshLoop → Prop
  | tick (selecting : l.mode = .selecting) (due : l.schedule.due ≤ l.clock) :
    Step l .attempted { l with schedule := l.schedule.tick l.clock, mode := .refreshing }
  | notified (selecting : l.mode = .selecting) (permit : l.permit = true) :
    Step l .attempted
      { l with permit := false, schedule := l.schedule.reset l.clock, mode := .refreshing }
  | finish (refreshing : l.mode = .refreshing) :
    Step l (.finished l.refresh.1) { l.refresh.2 with mode := .selecting }
  | stop (selecting : l.mode = .selecting) (stopping : l.stopping = true) :
    Step l .ended { l with mode := .ended }
  | invalidate : Step l .invalidated { l with permit := l.permit || !l.stopping }
  | refresh : Step l (.refreshed l.refresh.1) l.refresh.2
  | shutdown : Step l .shutdown { l with stopping := true }
  | alter (p : Platform) : Step l .altered { l with platform := p }
  | elapse (ms : Nat) (idle : l.Idle)
    (soon : l.mode ≠ .ended → l.clock + ms ≤ l.schedule.due) :
    Step l .elapsed { l with clock := l.clock + ms }

/-- **A history.** -/
def Runs : RefreshLoop → Trace → RefreshLoop → Prop
  | l, [], l' => l' = l
  | l, (t, e) :: es, l' => t = l.clock ∧ ∃ m, l.Step e m ∧ m.Runs es l'

variable {l m l' : RefreshLoop} {es before after : Trace} {e : Event} {t : Nat}

theorem runs_nil : l.Runs [] l := rfl

theorem Step.cons (h : l.Step e m) (hrun : m.Runs es l') : l.Runs ((l.clock, e) :: es) l' :=
  ⟨rfl, m, h, hrun⟩

theorem runs_append : l.Runs (before ++ after) l' ↔ ∃ m, l.Runs before m ∧ m.Runs after l' := by
  induction before generalizing l with
  | nil => simp [Runs]
  | cons x before ih =>
    obtain ⟨t, e⟩ := x
    simp only [List.cons_append, Runs, ih]
    constructor
    · rintro ⟨ht, k, hstep, m, hbefore, hafter⟩
      exact ⟨m, ⟨ht, k, hstep, hbefore⟩, hafter⟩
    · rintro ⟨m, ⟨ht, k, hstep, hbefore⟩, hafter⟩
      exact ⟨ht, k, hstep, m, hbefore, hafter⟩

/-! ### What a step does to the timing -/

/-- It leaves the schedule alone, and what is to be done is still to be done. -/
structure Aside (l : RefreshLoop) (e : Event) (m : RefreshLoop) : Prop where
  attempt : e.isAttempt = false
  event : e ≠ .ended
  clock : m.clock = l.clock
  schedule : m.schedule = l.schedule
  mode : m.mode = .ended ↔ l.mode = .ended
  permit : l.permit = true → m.permit = true
  permit_of : m.permit = true → l.permit = true ∨ e = .invalidated ∧ l.stopping = false
  stopping : m.stopping = true ↔ l.stopping = true ∨ e = .shutdown

/-- **What a step can do to the timing**: a ready branch is taken, time elapses, or something else
happens. -/
inductive Effect (l : RefreshLoop) (e : Event) (m : RefreshLoop) : Prop
  | ticks (event : e = .attempted) (selecting : l.mode = .selecting)
    (due : l.schedule.due ≤ l.clock) (mode : m.mode = .refreshing) (clock : m.clock = l.clock)
    (schedule : m.schedule = l.schedule.tick l.clock) (permit : m.permit = l.permit)
    (stopping : m.stopping = l.stopping)
  | answers (event : e = .attempted) (selecting : l.mode = .selecting) (ready : l.permit = true)
    (mode : m.mode = .refreshing) (clock : m.clock = l.clock)
    (schedule : m.schedule = l.schedule.reset l.clock) (permit : m.permit = false)
    (stopping : m.stopping = l.stopping)
  | stops (event : e = .ended) (selecting : l.mode = .selecting) (ready : l.stopping = true)
    (state : m = { l with mode := .ended })
  | elapses (event : e = .elapsed) (idle : l.Idle) (ms : Nat)
    (soon : l.mode ≠ .ended → l.clock + ms ≤ l.schedule.due)
    (state : m = { l with clock := l.clock + ms })
  | aside (aside : l.Aside e m)

theorem Step.effect (h : l.Step e m) : l.Effect e m := by
  cases h with
  | tick selecting due => exact .ticks rfl selecting due rfl rfl rfl rfl rfl
  | notified selecting permit => exact .answers rfl selecting permit rfl rfl rfl rfl rfl
  | stop selecting stopping => exact .stops rfl selecting stopping rfl
  | elapse ms idle soon => exact .elapses rfl idle ms soon rfl
  | finish refreshing =>
    exact .aside
      ⟨rfl, nofun, rfl, rfl, by simp [refreshing], id, .inl, by simp [RefreshLoop.refresh]⟩
  | invalidate =>
    refine .aside ⟨rfl, nofun, rfl, rfl, .rfl, fun h => by simp [h], fun h => ?_, by simp⟩
    simpa using h
  | refresh =>
    exact .aside ⟨rfl, nofun, rfl, rfl, .rfl, id, .inl, by simp [RefreshLoop.refresh]⟩
  | shutdown => exact .aside ⟨rfl, nofun, rfl, rfl, .rfl, id, .inl, by simp⟩
  | alter p => exact .aside ⟨rfl, nofun, rfl, rfl, .rfl, id, .inl, by simp⟩

/-! ### What was to be done is done -/

/-- **A loop with a branch that is ready attempts a refresh before time passes**, or it ends. -/
theorem Runs.attempts (h : l.Runs es l') (hmode : l.mode ≠ .ended)
    (hready : l.schedule.due ≤ l.clock ∨ l.permit = true) (hlt : l.clock < l'.clock) :
    (l.clock, .attempted) ∈ es ∨ (l.clock, .ended) ∈ es := by
  induction es generalizing l with
  | nil =>
    cases h
    exact absurd hlt (Nat.lt_irrefl _)
  | cons x es ih =>
    obtain ⟨t, e⟩ := x
    obtain ⟨rfl, m, hstep, hrun⟩ := h
    cases hstep.effect with
    | ticks event => exact .inl (event ▸ List.mem_cons_self)
    | answers event => exact .inl (event ▸ List.mem_cons_self)
    | stops event => exact .inr (event ▸ List.mem_cons_self)
    | elapses _ idle =>
      obtain ⟨-, hdue, hpermit, -⟩ := idle.resolve_left hmode
      rcases hready with hready | hready
      · omega
      · rw [hpermit] at hready
        cases hready
    | aside aside =>
      have hrest := ih hrun (mt aside.mode.mp hmode)
        (by rw [aside.schedule, aside.clock]; exact hready.imp_right aside.permit)
        (by rwa [aside.clock])
      rw [aside.clock] at hrest
      exact hrest.imp (List.mem_cons_of_mem _) (List.mem_cons_of_mem _)

/-- **A loop that is to end does so before time passes.** -/
theorem Runs.ends (h : l.Runs es l') (hmode : l.mode ≠ .ended) (hstopping : l.stopping = true)
    (hlt : l.clock < l'.clock) : (l.clock, .ended) ∈ es := by
  induction es generalizing l with
  | nil =>
    cases h
    exact absurd hlt (Nat.lt_irrefl _)
  | cons x es ih =>
    obtain ⟨t, e⟩ := x
    obtain ⟨rfl, m, hstep, hrun⟩ := h
    have hlater : m.clock = l.clock → m.mode ≠ .ended → m.stopping = true →
        (l.clock, .ended) ∈ (l.clock, e) :: es := by
      intro hclock hmode hstopping
      have hrest := ih hrun hmode hstopping (by rwa [hclock])
      rw [hclock] at hrest
      exact List.mem_cons_of_mem _ hrest
    cases hstep.effect with
    | ticks _ _ _ mode clock _ _ stopping =>
      exact hlater clock (by simp [mode]) (by rwa [stopping])
    | answers _ _ _ mode clock _ _ stopping =>
      exact hlater clock (by simp [mode]) (by rwa [stopping])
    | stops event => exact event ▸ List.mem_cons_self
    | elapses _ idle =>
      obtain ⟨-, -, -, hrunning⟩ := idle.resolve_left hmode
      rw [hstopping] at hrunning
      cases hrunning
    | aside aside =>
      exact hlater aside.clock (mt aside.mode.mp hmode) (aside.stopping.mpr (.inl hstopping))

theorem Step.of_ended (h : l.Step e m) (hmode : l.mode = .ended) :
    ¬ e.IsOfLoop ∧ m.mode = .ended := by
  cases h with
  | tick selecting => rw [hmode] at selecting; cases selecting
  | notified selecting => rw [hmode] at selecting; cases selecting
  | finish refreshing => rw [hmode] at refreshing; cases refreshing
  | stop selecting => rw [hmode] at selecting; cases selecting
  | invalidate => exact ⟨id, hmode⟩
  | refresh => exact ⟨id, hmode⟩
  | shutdown => exact ⟨id, hmode⟩
  | alter p => exact ⟨id, hmode⟩
  | elapse ms idle soon => exact ⟨id, hmode⟩

/-- **A loop that has ended does nothing any more.** -/
theorem Runs.of_ended (h : l.Runs es l') (hmode : l.mode = .ended) : ∀ x ∈ es, ¬ x.2.IsOfLoop := by
  induction es generalizing l with
  | nil => simp
  | cons x es ih =>
    obtain ⟨t, e⟩ := x
    obtain ⟨rfl, m, hstep, hrun⟩ := h
    obtain ⟨he, hm⟩ := hstep.of_ended hmode
    exact List.forall_mem_cons.mpr ⟨he, ih hrun hm⟩

/-! ### What remains -/

/-- What the steps of a history leave as it was is as it was in the end. -/
theorem Runs.eq_of_steps {α : Type} {f : RefreshLoop → α} {P : Event → Prop}
    (hstep : ∀ {l m : RefreshLoop} {e : Event}, l.Step e m → P e → f m = f l)
    (h : l.Runs es l') (hes : ∀ x ∈ es, P x.2) : f l' = f l := by
  induction es generalizing l with
  | nil =>
    cases h
    rfl
  | cons x es ih =>
    obtain ⟨t, e⟩ := x
    obtain ⟨-, m, hl, hrun⟩ := h
    obtain ⟨he, hes⟩ := List.forall_mem_cons.mp hes
    rw [ih hrun hes, hstep hl he]

theorem refresh_cache_of_not_ok (h : ∀ n, l.refresh.1 ≠ .ok n) : l.refresh.2.cache = l.cache := by
  revert h
  unfold refresh
  rw [Cache.run_refresh_eq]
  rcases (Cache.load l.cache.pageSize).run l.platform with ⟨e | s, q⟩
  · exact fun _ => rfl
  · exact fun h => absurd rfl (h s.size)

theorem Step.cache_of_not_succeeds (h : l.Step e m) (he : ¬ e.Succeeds) : m.cache = l.cache := by
  cases h with
  | finish refreshing =>
    refine refresh_cache_of_not_ok fun n hn => he ?_
    rw [hn]
    trivial
  | refresh =>
    refine refresh_cache_of_not_ok fun n hn => he ?_
    rw [hn]
    trivial
  | tick => rfl
  | notified => rfl
  | stop => rfl
  | invalidate => rfl
  | shutdown => rfl
  | alter => rfl
  | elapse => rfl

/-- **As long as refreshes fail, the cache remains.** -/
theorem Runs.cache_of_not_succeeds (h : l.Runs es l') (hes : ∀ x ∈ es, ¬ x.2.Succeeds) :
    l'.cache = l.cache := h.eq_of_steps Step.cache_of_not_succeeds hes

theorem Step.platform_of_not_uses (h : l.Step e m) (he : ¬ e.UsesPlatform) :
    m.platform = l.platform := by
  cases h with
  | finish => exact absurd trivial he
  | refresh => exact absurd trivial he
  | alter => exact absurd trivial he
  | tick => rfl
  | notified => rfl
  | stop => rfl
  | invalidate => rfl
  | shutdown => rfl
  | elapse => rfl

/-- **Nothing but a refresh uses the platform.** -/
theorem Runs.platform_of_not_uses (h : l.Runs es l') (hes : ∀ x ∈ es, ¬ x.2.UsesPlatform) :
    l'.platform = l.platform := h.eq_of_steps Step.platform_of_not_uses hes

/-! ### Refreshes that someone else asks for -/

/-- The refresh that someone else asks for is not made, but the platform is altered as if it were. -/
def Event.hush : Event → Event
  | .refreshed _ => .altered
  | e => e

/-- The loop with another snapshot. -/
def withSnapshot (l : RefreshLoop) (s : Snapshot) : RefreshLoop :=
  { l with cache := { l.cache with snapshot := s } }

theorem refresh_withSnapshot (l : RefreshLoop) (s : Snapshot) :
    ∃ s', (l.withSnapshot s).refresh = (l.refresh.1, l.refresh.2.withSnapshot s') := by
  unfold refresh withSnapshot
  simp only [Cache.run_refresh_eq]
  exact ⟨_, rfl⟩

theorem Step.hush (h : l.Step e m) (s : Snapshot) :
    ∃ s', (l.withSnapshot s).Step e.hush (m.withSnapshot s') := by
  cases h with
  | tick selecting due => exact ⟨s, .tick selecting due⟩
  | notified selecting permit => exact ⟨s, .notified selecting permit⟩
  | stop selecting stopping => exact ⟨s, .stop selecting stopping⟩
  | invalidate => exact ⟨s, .invalidate⟩
  | shutdown => exact ⟨s, .shutdown⟩
  | alter p => exact ⟨s, .alter p⟩
  | elapse ms idle soon => exact ⟨s, .elapse ms idle soon⟩
  | finish refreshing =>
    obtain ⟨s', hs'⟩ := refresh_withSnapshot l s
    have hstep : (l.withSnapshot s).Step _ _ := .finish refreshing
    rw [hs'] at hstep
    exact ⟨s', hstep⟩
  | refresh =>
    have hstep : (l.withSnapshot s).Step .altered _ := .alter l.refresh.2.platform
    have hcache : l.refresh.2.withSnapshot s =
        { l.withSnapshot s with platform := l.refresh.2.platform } := by
      unfold RefreshLoop.refresh withSnapshot
      simp only [Cache.run_refresh_eq]
    exact ⟨s, hcache ▸ hstep⟩

/-- **The history without the refreshes that someone else asked for** is the same as the one with
them, apart from what is in the cache. -/
theorem Runs.hush (h : l.Runs es l') (s : Snapshot) :
    ∃ s', (l.withSnapshot s).Runs (es.map fun x => (x.1, x.2.hush)) (l'.withSnapshot s') := by
  induction es generalizing l s with
  | nil =>
    cases h
    exact ⟨s, rfl⟩
  | cons x es ih =>
    obtain ⟨t, e⟩ := x
    obtain ⟨ht, m, hstep, hrun⟩ := h
    obtain ⟨s', hstep'⟩ := hstep.hush s
    obtain ⟨s'', hrun'⟩ := ih hrun s'
    exact ⟨s'', ht, _, hstep', hrun'⟩

end RefreshLoop
end CatalogRules

import CatalogRules.Proofs.Cache.RefreshLoop

/-! # The timing of the loop

`Course` is the invariant: what a trace so far says about the state of the loop. The next tick is
due one interval after the last attempt, and a permit is there because of an invalidation at this
very instant, so time does not pass before it is used. `Timely` is what follows from it for whole
histories, whichever branches are taken. -/

namespace CatalogRules

theorem Refresher.intervalOf_pos (seconds : Nat) : 0 < intervalOf seconds := by
  unfold intervalOf
  omega

namespace RefreshLoop

variable {interval : Nat} {l m l' : RefreshLoop} {es before after : Trace} {e : Event} {t : Nat}

@[simp] theorem lastAttempt_snoc (x : Nat × Event) :
    Trace.lastAttempt (es ++ [x]) = if x.2.isAttempt then some x.1 else es.lastAttempt := by
  simp [Trace.lastAttempt]

@[simp] theorem attempts_snoc (x : Nat × Event) :
    Trace.attempts (es ++ [x]) = es.attempts + if x.2.isAttempt then 1 else 0 := by
  simp [Trace.attempts, List.countP_append, List.countP_singleton]

/-! ### The invariant -/

/-- An invalidation at an instant has reached the loop, and there were at most some attempts
since. -/
def Trace.Notifies (es : Trace) (t n : Nat) : Prop :=
  ∃ before after, es = before ++ (t, .invalidated) :: after ∧ (∀ s, (s, .shutdown) ∉ before) ∧
    Trace.attempts after ≤ n

theorem Trace.Notifies.snoc {n k : Nat} (h : es.Notifies t n) (x : Nat × Event)
    (hk : n + (if x.2.isAttempt then 1 else 0) ≤ k) : Trace.Notifies (es ++ [x]) t k := by
  obtain ⟨before, after, rfl, hshutdown, hn⟩ := h
  refine ⟨before, after ++ [x], by simp, hshutdown, ?_⟩
  rw [attempts_snoc]
  omega

theorem Trace.Notifies.mono {n k : Nat} (h : es.Notifies t n) (hk : n ≤ k) : es.Notifies t k := by
  obtain ⟨before, after, hes, hshutdown, hn⟩ := h
  exact ⟨before, after, hes, hshutdown, hn.trans hk⟩

/-- **What a trace says about the loop.** -/
structure Course (interval : Nat) (es : Trace) (l : RefreshLoop) : Prop where
  schedule : l.schedule.interval = interval
  first : l.mode ≠ .ended → es.lastAttempt = none → l.clock = 0 ∧ l.schedule.due = 0
  paced : l.mode ≠ .ended → ∀ t, es.lastAttempt = some t →
    l.schedule.due = t + interval ∧ l.clock ≤ t + interval
  permit : l.mode ≠ .ended → l.permit = true →
    es.Notifies l.clock 0 ∨ es.Notifies l.clock 1 ∧ l.clock < l.schedule.due
  stopping : l.stopping = true → ∃ s, (s, .shutdown) ∈ es ∧ (l.mode ≠ .ended → s = l.clock)
  running : l.stopping = false → ∀ s, (s, .shutdown) ∉ es
  ended : l.mode = .ended → l.stopping = true ∧ ∃ s ≤ l.clock, (s, .ended) ∈ es

theorem course_start (pageSize seconds : Nat) (p : Platform) :
    Course (Refresher.intervalOf seconds) [] (start pageSize seconds p) where
  schedule := rfl
  first _ _ := ⟨rfl, rfl⟩
  paced := fun _ _ h => by cases h
  permit := fun _ h => by cases h
  stopping := fun h => by cases h
  running _ _ := List.not_mem_nil
  ended := fun h => by cases h

namespace Course

/-- Time has not gone beyond the next tick. -/
theorem due_eq (h : Course interval es l) (hmode : l.mode ≠ .ended)
    (hdue : l.schedule.due ≤ l.clock) : l.schedule.due = l.clock := by
  cases hlast : es.lastAttempt with
  | none =>
    obtain ⟨hclock, hdue⟩ := h.first hmode hlast
    rw [hclock, hdue]
  | some t =>
    obtain ⟨hdue', hclock⟩ := h.paced hmode t hlast
    omega

theorem attempt (h : Course interval es l) (hmode : l.mode ≠ .ended) (hm : m.mode = .refreshing)
    (hclock : m.clock = l.clock) (hschedule : m.schedule = l.schedule.reset l.clock)
    (hstopping : m.stopping = l.stopping)
    (hpermit : m.permit = true → es.Notifies l.clock 0 ∧ 0 < interval) :
    Course interval (es ++ [(l.clock, .attempted)]) m where
  schedule := by rw [hschedule, Schedule.reset_interval, h.schedule]
  first := fun _ hlast => by simp [Event.isAttempt] at hlast
  paced := fun _ t hlast => by
    simp only [lastAttempt_snoc, Event.isAttempt, if_true, Option.some.injEq] at hlast
    subst hlast
    rw [hschedule, Schedule.reset_due, h.schedule, hclock]
    exact ⟨rfl, Nat.le_add_right _ _⟩
  permit := fun _ hp => by
    obtain ⟨hnotifies, hpos⟩ := hpermit hp
    rw [hclock, hschedule, Schedule.reset_due, h.schedule]
    exact .inr ⟨hnotifies.snoc _ le_rfl, Nat.lt_add_of_pos_right hpos⟩
  stopping := fun hs => by
    obtain ⟨s, hmem, hs⟩ := h.stopping (by rwa [← hstopping])
    exact ⟨s, List.mem_append_left _ hmem, fun _ => by rw [hclock, hs hmode]⟩
  running := fun hs s hmem => by
    rw [hstopping] at hs
    exact absurd hmem (by simp [h.running hs s])
  ended := fun hended => by rw [hm] at hended; cases hended

theorem aside (h : Course interval es l) (ha : l.Aside e m) :
    Course interval (es ++ [(l.clock, e)]) m where
  schedule := by rw [ha.schedule, h.schedule]
  first := fun hmode hlast => by
    simp only [lastAttempt_snoc, ha.attempt, Bool.false_eq_true, if_false] at hlast
    rw [ha.clock, ha.schedule]
    exact h.first (mt ha.mode.mpr hmode) hlast
  paced := fun hmode t hlast => by
    simp only [lastAttempt_snoc, ha.attempt, Bool.false_eq_true, if_false] at hlast
    rw [ha.clock, ha.schedule]
    exact h.paced (mt ha.mode.mpr hmode) t hlast
  permit := fun hmode hp => by
    rw [ha.clock, ha.schedule]
    rcases ha.permit_of hp with hp | ⟨rfl, hstopping⟩
    · exact (h.permit (mt ha.mode.mpr hmode) hp).imp (·.snoc _ (by simp [ha.attempt]))
        (.imp_left (·.snoc _ (by simp [ha.attempt])))
    · exact .inl ⟨es, [], rfl, h.running hstopping, le_rfl⟩
  stopping := fun hs => by
    rw [ha.clock]
    rcases ha.stopping.mp hs with hs | rfl
    · obtain ⟨s, hmem, hs⟩ := h.stopping hs
      exact ⟨s, List.mem_append_left _ hmem, fun hmode => hs (mt ha.mode.mpr hmode)⟩
    · exact ⟨l.clock, List.mem_append_right _ List.mem_cons_self, fun _ => rfl⟩
  running := fun hs s hmem => by
    have hnot := mt ha.stopping.mpr (Bool.not_eq_true _ ▸ hs)
    rcases List.mem_append.mp hmem with hmem | hmem
    · exact h.running (by simpa using fun hl => hnot (.inl hl)) s hmem
    · rw [List.mem_singleton, Prod.mk.injEq] at hmem
      exact hnot (.inr hmem.2.symm)
  ended := fun hmode => by
    obtain ⟨hstopping, s, hs, hmem⟩ := h.ended (ha.mode.mp hmode)
    rw [ha.clock]
    exact ⟨ha.stopping.mpr (.inl hstopping), s, hs, List.mem_append_left _ hmem⟩

/-- **A step keeps the invariant.** -/
theorem step (hpos : 0 < interval) (h : Course interval es l) (hstep : l.Step e m) :
    Course interval (es ++ [(l.clock, e)]) m := by
  cases hstep.effect with
  | aside ha => exact h.aside ha
  | ticks event selecting due mode clock schedule permit stopping =>
    subst event
    have hmode : l.mode ≠ .ended := by simp [selecting]
    refine h.attempt hmode mode clock
      (schedule.trans (Schedule.tick_eq_reset (h.due_eq hmode due))) stopping fun hp => ?_
    refine ⟨(h.permit hmode (by rwa [← permit])).resolve_right fun hlater => ?_, hpos⟩
    exact absurd due (Nat.not_le.mpr hlater.2)
  | answers event selecting ready mode clock schedule permit stopping =>
    subst event
    refine h.attempt (by simp [selecting]) mode clock schedule stopping fun hp => ?_
    rw [permit] at hp
    cases hp
  | stops event selecting ready state =>
    subst event state
    exact {
      schedule := h.schedule
      first := fun hmode => absurd rfl hmode
      paced := fun hmode => absurd rfl hmode
      permit := fun hmode => absurd rfl hmode
      stopping := fun hs => by
        obtain ⟨s, hmem, -⟩ := h.stopping hs
        exact ⟨s, List.mem_append_left _ hmem, fun hmode => absurd rfl hmode⟩
      running := fun hs => absurd ready (by simpa using hs)
      ended := fun _ => ⟨ready, l.clock, le_rfl, List.mem_append_right _ List.mem_cons_self⟩ }
  | elapses event idle ms soon state =>
    subst event state
    have hrunning : l.mode ≠ .ended → l.clock < l.schedule.due ∧ l.permit = false ∧
        l.stopping = false := fun hmode => (idle.resolve_left hmode).2
    exact {
      schedule := h.schedule
      first := fun hmode hlast => by
        obtain ⟨hclock, hdue⟩ := h.first hmode (by simpa [Event.isAttempt] using hlast)
        have := (hrunning hmode).1
        omega
      paced := fun hmode t hlast => by
        have hdue := (h.paced hmode t (by simpa [Event.isAttempt] using hlast)).1
        exact ⟨hdue, hdue ▸ soon hmode⟩
      permit := fun hmode hp => by
        rw [show l.permit = true from hp] at hrunning
        cases (hrunning hmode).2.1
      stopping := fun hs => by
        obtain ⟨s, hmem, -⟩ := h.stopping hs
        refine ⟨s, List.mem_append_left _ hmem, fun hmode => ?_⟩
        rw [show l.stopping = true from hs] at hrunning
        cases (hrunning hmode).2.2
      running := fun hs s => by simp [h.running hs s]
      ended := fun hmode => by
        obtain ⟨hstopping, s, hs, hmem⟩ := h.ended hmode
        exact ⟨hstopping, s, Nat.le_add_right_of_le hs, List.mem_append_left _ hmem⟩ }

theorem run (hpos : 0 < interval) (h : Course interval before l) (hrun : l.Runs es l') :
    Course interval (before ++ es) l' := by
  induction es generalizing before l with
  | nil =>
    cases hrun
    rwa [List.append_nil]
  | cons x es ih =>
    obtain ⟨t, e⟩ := x
    obtain ⟨rfl, m, hstep, hrun⟩ := hrun
    have hrest := ih (h.step hpos hstep) hrun
    rwa [List.append_assoc] at hrest

end Course

/-! ### Whole histories -/

/-- **The timing of a history.** -/
structure Timely (interval : Nat) (es : Trace) (l : RefreshLoop) : Prop where
  /-- The loop attempts a refresh when it is started. -/
  started : 0 < l.clock → (0, .attempted) ∈ es ∨ (0, .ended) ∈ es
  /-- An invalidation that reaches the loop is followed by an attempt at the same instant. -/
  invalidated : ∀ (before after : Trace) t, es = before ++ (t, .invalidated) :: after →
    (∀ s, (s, .shutdown) ∉ before) → t < l.clock → (t, .attempted) ∈ after ∨ (t, .ended) ∈ after
  /-- Apart from that, an attempt comes one interval after the one before. -/
  paced : ∀ (before after : Trace) t, es = before ++ (t, .attempted) :: after →
    before.lastAttempt = none ∧ t = 0 ∨ (∃ s, before.lastAttempt = some s ∧ t = s + interval) ∨
      before.Notifies t 1
  /-- The last attempt is never older than an interval. -/
  recent : l.mode ≠ .ended → 0 < l.clock → ∃ t, es.lastAttempt = some t ∧ l.clock ≤ t + interval
  /-- A loop that is shut down ends at once. -/
  stopped : ∀ t, (t, .shutdown) ∈ es → t < l.clock → ∃ s ≤ t, (s, .ended) ∈ es
  /-- It ends only if it is shut down, and then it does nothing any more. -/
  ended : ∀ (before after : Trace) t, es = before ++ (t, .ended) :: after →
    (t, .shutdown) ∈ before ∧ ∀ x ∈ after, ¬ x.2.IsOfLoop

theorem Runs.split (h : l.Runs (before ++ (t, e) :: after) l') :
    ∃ m k, l.Runs before m ∧ t = m.clock ∧ m.Step e k ∧ k.Runs after l' := by
  obtain ⟨m, hbefore, ht, k, hstep, hafter⟩ := runs_append.mp h
  exact ⟨m, k, hbefore, ht, hstep, hafter⟩

/-- **Every history of a loop is timely**, whichever branches are taken and whatever fails. -/
theorem timely (pageSize : Nat) {seconds : Nat} {p : Platform}
    (h : (start pageSize seconds p).Runs es l) : Timely (Refresher.intervalOf seconds) es l := by
  have hpos := Refresher.intervalOf_pos seconds
  have hcourse : ∀ {before m}, (start pageSize seconds p).Runs before m →
      Course (Refresher.intervalOf seconds) before m := fun hrun =>
    (course_start pageSize seconds p).run hpos hrun
  refine ⟨fun hlt => ?_, ?_, ?_, fun hmode hlt => ?_, fun t hmem hlt => ?_, ?_⟩
  · exact h.attempts (by simp [start]) (.inl le_rfl) hlt
  · rintro before after t rfl hrunning hlt
    obtain ⟨m, k, hbefore, rfl, hstep, hafter⟩ := h.split
    have hstopping : m.stopping = false := by
      by_contra hstopping
      obtain ⟨s, hmem, -⟩ := (hcourse hbefore).stopping (by simpa using hstopping)
      exact hrunning s hmem
    have hmode : m.mode ≠ .ended := fun hended => by
      have hended := ((hcourse hbefore).ended hended).1
      rw [hstopping] at hended
      cases hended
    cases hstep
    exact hafter.attempts hmode (.inr (by simp [hstopping])) hlt
  · rintro before after t rfl
    obtain ⟨m, k, hbefore, rfl, hstep, hafter⟩ := h.split
    have hc := hcourse hbefore
    cases hstep.effect with
    | ticks event selecting due =>
      have hmode : m.mode ≠ .ended := by simp [selecting]
      cases hlast : before.lastAttempt with
      | none => exact .inl ⟨rfl, (hc.first hmode hlast).1⟩
      | some s =>
        refine .inr (.inl ⟨s, rfl, ?_⟩)
        rw [← (hc.paced hmode s hlast).1, hc.due_eq hmode due]
    | answers event selecting ready =>
      refine .inr (.inr ?_)
      rcases hc.permit (by simp [selecting]) ready with hn | ⟨hn, -⟩
      · exact hn.mono (Nat.zero_le 1)
      · exact hn
    | stops event => cases event
    | elapses event => cases event
    | aside aside => cases aside.attempt
  · have hc := hcourse h
    cases hlast : es.lastAttempt with
    | none =>
      have := (hc.first hmode hlast).1
      omega
    | some t => exact ⟨t, rfl, (hc.paced hmode t hlast).2⟩
  · obtain ⟨before, after, rfl⟩ := List.append_of_mem hmem
    obtain ⟨m, k, hbefore, rfl, hstep, hafter⟩ := h.split
    cases hstep
    by_cases hmode : m.mode = .ended
    · obtain ⟨-, s, hs, hmem⟩ := (hcourse hbefore).ended hmode
      exact ⟨s, hs, List.mem_append_left _ hmem⟩
    · exact ⟨m.clock, le_rfl, List.mem_append_right _
        (List.mem_cons_of_mem _ (hafter.ends hmode rfl hlt))⟩
  · rintro before after t rfl
    obtain ⟨m, k, hbefore, rfl, hstep, hafter⟩ := h.split
    cases hstep with
    | stop selecting stopping =>
      obtain ⟨s, hmem, hs⟩ := (hcourse hbefore).stopping stopping
      rw [hs (by simp [selecting])] at hmem
      exact ⟨hmem, hafter.of_ended rfl⟩

end RefreshLoop
end CatalogRules

import CatalogRules.Proofs.Evaluation.Duo

/-! # Two requests at the same time

Two requests for different tests of one entity share a platform, and a schedule says whose call is
next. The one that stores its results last has them stored in the end, and prior outcomes of other
tests are there as well. The results of the other one are there too if the last one has read them;
but nothing keeps it from reading before they are stored and from storing afterwards, and then they
are lost (`Duo.lost_update`). `Duo.stored_of_returned` says what holds for all schedules. -/

namespace CatalogRules

open Evaluation

namespace Stage

/-- The prior results have been read. -/
def HasRead (s : Stage) : Prop := s.phase ≠ .fresh

/-- The merged results have been stored. -/
def HasStored (s : Stage) : Prop := ∃ rs, s.phase = .wrote rs

end Stage

namespace Stage.Phase

/-- Some outcomes are there to stay: they are stored, or they are about to be. -/
def Carries (os stored : List Outcome) : Phase → Prop
  | .fresh | .wrote _ => ∀ o ∈ os, o ∈ stored
  | .pending _ w => ∀ o ∈ os, o ∈ w.outcomes
  | .failed => True

/-- What is returned is about the tests of the request, and it is among what is to be stored. -/
def Fine (ids : List String) (u : Urn) : Phase → Prop
  | .fresh | .failed => True
  | .pending rs w => ∀ o ∈ rs.outcomesFor u, o ∈ w.outcomes ∧ o.test ∈ ids
  | .wrote rs => ∀ o ∈ rs.outcomesFor u, o.test ∈ ids

end Stage.Phase

namespace Stage.Moves

variable {c : Snapshot} {ids : List String} {u : Urn} {s s' : Stage} {p q : Platform}
  {os : List Outcome}

/-- A move stores what was to be stored, or it leaves alone what is stored and who has stored it. -/
theorem stores (h : Moves c ids u s p s' q) :
    (q.storedFor u = p.storedFor u ∧ ∀ rs, s'.phase = .wrote rs ↔ s.phase = .wrote rs) ∨
    ∃ rs w, s.phase = .pending rs w ∧ s'.phase = .wrote rs ∧ q.storedFor u = w.outcomes := by
  cases h with
  | quiet phase stored => exact .inl ⟨stored, fun rs => by rw [phase]⟩
  | reads rs w before after stored => exact .inl ⟨stored, fun rs' => by rw [before, after]; simp⟩
  | writes rs w before after stored => exact .inr ⟨rs, w, before, after, stored⟩
  | fails before after stored =>
    refine .inl ⟨stored, fun rs => ⟨fun hp => ?_, fun hp => absurd hp (before rs)⟩⟩
    rw [after] at hp
    cases hp

theorem fine (h : Moves c ids u s p s' q) (hs : s.phase.Fine ids u) : s'.phase.Fine ids u := by
  cases h with
  | quiet phase stored => rwa [phase]
  | reads rs w before after stored merged tests =>
    rw [after]
    exact fun o ho => ⟨(merged o).mpr (.inl ho), tests o ho⟩
  | writes rs w before after stored =>
    rw [before] at hs
    rw [after]
    exact fun o ho => (hs o ho).2
  | fails before after stored =>
    rw [after]
    trivial

/-- Outcomes of other tests stay there; once the results are stored, all do. -/
theorem carries (h : Moves c ids u s p s' q)
    (hos : (∀ o ∈ os, o.test ∉ ids) ∨ s.HasStored) (hs : s.phase.Carries os (p.storedFor u)) :
    s'.phase.Carries os (q.storedFor u) := by
  cases h with
  | quiet phase stored => rwa [phase, stored]
  | reads rs w before after stored merged tests =>
    have hos : ∀ o ∈ os, o.test ∉ ids := hos.resolve_right fun ⟨rs', h⟩ => by
      rw [before] at h
      cases h
    rw [before] at hs
    rw [after]
    exact fun o ho => (merged o).mpr
      (.inr ⟨hs o ho, fun hmem => hos o ho (List.mem_filter.mp hmem).1⟩)
  | writes rs w before after stored =>
    rw [before] at hs
    rw [after, stored]
    exact hs
  | fails before after stored =>
    rw [after]
    trivial

end Stage.Moves

namespace Duo

variable {c : Snapshot} {ids : Bool → List String} {u : Urn} {os : List Outcome} {d d' : Duo}
  {i : Bool}

/-- One of the requests makes a move, and the other one stays where it is. -/
structure Turn (c : Snapshot) (ids : Bool → List String) (u : Urn) (d : Duo) (i : Bool) (d' : Duo) :
    Prop where
  moves : Stage.Moves c (ids i) u (d.stage i) d.platform (d'.stage i) d'.platform
  sound : (d'.stage i).Sound c (ids i) u
  other : ∀ j, j ≠ i → d'.stage j = d.stage j

/-! ### The invariant -/

/-- Outcomes are there to stay if both requests carry them. -/
theorem Turn.carries (ht : Turn c ids u d i d')
    (hos : (∀ o ∈ os, o.test ∉ ids i) ∨ (d.stage i).HasStored)
    (h : ∀ j, (d.stage j).phase.Carries os (d.storedFor u)) (j : Bool) :
    (d'.stage j).phase.Carries os (d'.storedFor u) := by
  by_cases hj : j = i
  · rw [hj]
    exact ht.moves.carries hos (h i)
  · have hother := h j
    rw [ht.other j hj]
    -- what the other request relies on in the store is stored again
    rcases ht.moves.stores with ⟨hstored, -⟩ | ⟨rs, w, hbefore, -, hstored⟩
    · rwa [storedFor, hstored]
    · have hw := h i
      rw [hbefore] at hw
      rw [storedFor, hstored]
      cases hp : (d.stage j).phase with
      | pending rs' w' =>
        rw [hp] at hother
        exact hother
      | fresh => exact hw
      | wrote rs' => exact hw
      | failed => trivial

/-- **What holds at any time**: some outcomes of other tests are there to stay, and if results have
been stored, then those of one of the requests are there. -/
structure Kept (c : Snapshot) (ids : Bool → List String) (u : Urn) (os : List Outcome) (d : Duo) :
    Prop where
  sound : ∀ i, (d.stage i).Sound c (ids i) u
  fine : ∀ i, (d.stage i).phase.Fine (ids i) u
  carries : ∀ i, (d.stage i).phase.Carries os (d.storedFor u)
  last : ∀ i, (d.stage i).HasStored → ∃ j rs, (d.stage j).phase = .wrote rs ∧
    ∀ o ∈ rs.outcomesFor u, o ∈ d.storedFor u

theorem kept_start {t : Bool → Inquiry Evaluation} {p : Platform}
    (ht : ∀ i, (t i).Gives (Answers c (.only (ids i)) [u])) (hos : ∀ o ∈ os, o ∈ p.storedFor u) :
    (start t p).Kept c ids u os where
  sound := ht
  fine _ := trivial
  carries _ := hos
  last := fun _ ⟨_, hp⟩ => by cases hp

theorem Kept.turn (hc : c.Loaded) (h : d.Kept c ids u os) (i : Bool) :
    Turn c ids u d i (d.step c ids i) := by
  obtain ⟨hmoves, hsound⟩ := Stage.moves hc (h.sound i) d.platform
  have hself : (d.step c ids i).stage i =
      ((d.stage i).next c (.only (ids i)) d.platform).1 := Function.update_self ..
  rw [← hself] at hmoves hsound
  exact ⟨hmoves, hsound, fun j hj => Function.update_of_ne hj _ _⟩

/-- **A call of either request keeps the invariant.** -/
theorem Kept.step (hc : c.Loaded) (hos : ∀ i, ∀ o ∈ os, o.test ∉ ids i) (h : d.Kept c ids u os)
    (i : Bool) : (d.step c ids i).Kept c ids u os := by
  have ht := h.turn hc i
  refine ⟨fun j => ?_, fun j => ?_, ht.carries (.inl (hos i)) h.carries, fun j hj => ?_⟩
  · by_cases hj : j = i
    · rw [hj]
      exact ht.sound
    · rw [ht.other j hj]
      exact h.sound j
  · by_cases hj : j = i
    · rw [hj]
      exact ht.moves.fine (h.fine i)
    · rw [ht.other j hj]
      exact h.fine j
  · rcases ht.moves.stores with ⟨hstored, hsame⟩ | ⟨rs, w, hbefore, hafter, hstored⟩
    · have hwrote : ∀ k rs, ((d.step c ids i).stage k).phase = .wrote rs ↔
          (d.stage k).phase = .wrote rs := by
        intro k rs
        by_cases hk : k = i
        · rw [hk]
          exact hsame rs
        · rw [ht.other k hk]
      obtain ⟨rs, hrs⟩ := hj
      obtain ⟨k, rs', hk, hall⟩ := h.last j ⟨rs, (hwrote j rs).mp hrs⟩
      exact ⟨k, rs', (hwrote k rs').mpr hk, by rwa [storedFor, hstored]⟩
    · have hfine := h.fine i
      rw [hbefore] at hfine
      exact ⟨i, rs, hafter, fun o ho => by
        rw [storedFor, hstored]
        exact (hfine o ho).1⟩

theorem Kept.run (hc : c.Loaded) (hos : ∀ i, ∀ o ∈ os, o.test ∉ ids i) (h : d.Kept c ids u os)
    (schedule : List Bool) : (d.run c ids schedule).Kept c ids u os := by
  induction schedule generalizing d with
  | nil => exact h
  | cons i schedule ih => exact ih (h.step hc hos i)

/-! ### One request after the other -/

theorem Turn.wrote (ht : Turn c ids u d i d') {j : Bool} {rs : Evaluation}
    (h : (d.stage j).phase = .wrote rs) : (d'.stage j).phase = .wrote rs := by
  by_cases hj : j = i
  · subst hj
    rcases ht.moves.stores with ⟨-, hsame⟩ | ⟨rs', w, hbefore, -, -⟩
    · exact (hsame rs).mpr h
    · rw [h] at hbefore
      cases hbefore
  · rw [ht.other j hj]
    exact h

theorem Kept.wrote (hc : c.Loaded) (hk : d.Kept c ids u []) {j : Bool} {rs : Evaluation}
    (h : (d.stage j).phase = .wrote rs) (schedule : List Bool) :
    ((d.run c ids schedule).stage j).phase = .wrote rs := by
  induction schedule generalizing d with
  | nil => exact h
  | cons i schedule ih => exact ih (hk.step hc (by simp) i) ((hk.turn hc i).wrote h)

theorem Turn.hasStored (ht : Turn c ids u d i d') {j : Bool} (h : (d.stage j).HasStored) :
    (d'.stage j).HasStored := by
  obtain ⟨rs, hrs⟩ := h
  exact ⟨rs, ht.wrote hrs⟩

/-- If the other request has stored its results, what this one stores remains. -/
structure Behind (u : Urn) (i : Bool) (d : Duo) : Prop where
  other : (d.stage !i).HasStored
  stored : ∀ rs, (d.stage i).phase = .wrote rs → ∀ o ∈ rs.outcomesFor u, o ∈ d.storedFor u

theorem Behind.run (hc : c.Loaded) (hk : d.Kept c ids u []) (h : d.Behind u i)
    (schedule : List Bool) : (d.run c ids schedule).Behind u i := by
  induction schedule generalizing d with
  | nil => exact h
  | cons k schedule ih =>
    refine ih (hk.step hc (by simp) k) ?_
    have ht := hk.turn hc k
    refine ⟨ht.hasStored h.other, fun rs hrs => ?_⟩
    rcases ht.moves.stores with ⟨hstored, hsame⟩ | ⟨rs', w, hbefore, hafter, hstored⟩
    · rw [storedFor, hstored]
      refine h.stored rs ?_
      by_cases hki : i = k
      · subst hki
        exact (hsame rs).mp hrs
      · rwa [ht.other i hki] at hrs
    · -- only this request can have been about to store anything
      have hki : k = i := by
        by_contra hki
        have hother : k = !i := Bool.eq_not_iff.mpr hki
        obtain ⟨rs'', h''⟩ := h.other
        rw [← hother, hbefore] at h''
        cases h''
      subst hki
      rw [hafter] at hrs
      cases hrs
      have hfine := hk.fine k
      rw [hbefore] at hfine
      rw [storedFor, hstored]
      exact fun o ho => (hfine o ho).1

/-- If the other request has stored its results before this one reads, both carry them. -/
structure Ahead (u : Urn) (i : Bool) (os : List Outcome) (d : Duo) : Prop where
  other : (d.stage !i).HasStored
  carries : ∀ j, (d.stage j).phase.Carries os (d.storedFor u)

theorem Ahead.run (hc : c.Loaded) (hk : d.Kept c ids u []) (hos : ∀ o ∈ os, o.test ∉ ids i)
    (h : d.Ahead u i os) (schedule : List Bool) : (d.run c ids schedule).Ahead u i os := by
  induction schedule generalizing d with
  | nil => exact h
  | cons k schedule ih =>
    refine ih (hk.step hc (by simp) k) ?_
    have ht := hk.turn hc k
    refine ⟨ht.hasStored h.other, ht.carries ?_ h.carries⟩
    by_cases hki : k = i
    · subst hki
      exact .inl hos
    · have hother : k = !i := Bool.eq_not_iff.mpr hki
      rw [hother]
      exact .inr h.other

/-- Who reads late has both carry what the other one returns. -/
theorem ahead_of_fresh {rs : Evaluation} (hfresh : (d.stage i).phase = .fresh)
    (hwrote : (d.stage !i).phase = .wrote rs)
    (hstored : ∀ o ∈ rs.outcomesFor u, o ∈ d.storedFor u) : d.Ahead u i (rs.outcomesFor u) := by
  refine ⟨⟨rs, hwrote⟩, fun j => ?_⟩
  obtain rfl | rfl : j = i ∨ j = !i := (eq_or_ne j i).imp_right Bool.eq_not_iff.mpr
  · rw [hfresh]
    exact hstored
  · rw [hwrote]
    exact hstored

/-- **What is stored in the end**, whatever the order of the calls: the prior outcomes of tests that
neither request names, and the outcomes of one of the requests. The request that stores last is one
whose outcomes are stored, and the other one is as well if its results were there to be read. -/
theorem stored_of_returned {r : Registry} {t : Bool → Inquiry Evaluation} {p : Platform}
    {schedule : List Bool} {rs : Bool → Evaluation} (hc : c.Loaded)
    (ht : ∀ i, (t i).Evaluates r c (.only (ids i)) [u])
    (hdisjoint : ∀ x ∈ ids false, x ∉ ids true)
    (hend : ∀ i, ((start t p).run c ids schedule).stage i = .returned (.ok (rs i))) :
    let stored := ((start t p).run c ids schedule).storedFor u
    (∀ o ∈ p.storedFor u, (∀ i, o.test ∉ ids i) → o ∈ stored) ∧
    (∃ i, ∀ o ∈ (rs i).outcomesFor u, o ∈ stored) ∧
    ∀ before after i, schedule = before ++ after →
      (((start t p).run c ids before).stage !i).HasStored →
      ¬ (((start t p).run c ids before).stage i).HasStored →
      (∀ o ∈ (rs i).outcomesFor u, o ∈ stored) ∧
      (¬ (((start t p).run c ids before).stage i).HasRead →
        ∀ o ∈ (rs !i).outcomesFor u, o ∈ stored) := by
  intro stored
  have hwrote : ∀ i, (((start t p).run c ids schedule).stage i).phase = .wrote (rs i) :=
    fun i => by rw [hend i]; rfl
  have hempty : ∀ i, ∀ o ∈ ([] : List Outcome), o.test ∉ ids i := by simp
  have hgives := fun i => (ht i).2
  refine ⟨fun o ho hids => ?_, ?_, ?_⟩
  · have hkept : ((start t p).run c ids schedule).Kept c ids u [o] :=
      (kept_start hgives (by simpa using ho)).run hc (by simpa using hids) schedule
    have hcarries := hkept.carries true
    rw [hwrote] at hcarries
    exact hcarries o List.mem_cons_self
  · obtain ⟨i, rs', hi, hall⟩ :=
      ((kept_start hgives (by simp)).run hc hempty schedule).last true ⟨_, hwrote true⟩
    rw [hwrote] at hi
    cases hi
    exact ⟨i, hall⟩
  · rintro before after i rfl hstored hnot
    have hk : ((start t p).run c ids before).Kept c ids u [] :=
      (kept_start hgives (by simp)).run hc hempty before
    rw [run_append] at hwrote
    have hrun : stored = (((start t p).run c ids before).run c ids after).storedFor u := by
      rw [← run_append]
    rw [hrun]
    refine ⟨?_, fun hunread => ?_⟩
    · have hbehind : Behind u i _ := ⟨hstored, fun rs' h => absurd ⟨rs', h⟩ hnot⟩
      exact (hbehind.run hc hk after).stored _ (hwrote i)
    · -- the results of the other request are there when this one reads
      obtain ⟨j, rs', hj, hall⟩ := hk.last _ hstored
      obtain rfl : j = !i := by
        refine Bool.eq_not_iff.mpr fun hji => hnot ⟨rs', ?_⟩
        rwa [← hji]
      have hrs : rs' = rs !i := by
        have h := hk.wrote hc hj after
        rw [hwrote] at h
        cases h
        rfl
      subst hrs
      have hfine := hk.fine !i
      rw [hj] at hfine
      have hother : ∀ o ∈ (rs !i).outcomesFor u, o.test ∉ ids i := by
        intro o ho hmem
        cases i
        · exact hdisjoint _ hmem (hfine o ho)
        · exact hdisjoint _ (hfine o ho) hmem
      have hahead : Ahead u i _ _ := ahead_of_fresh (not_not.mp hunread) hj hall
      have hcarries := (hahead.run hc hk hother after).carries i
      rw [hwrote] at hcarries
      exact hcarries

end Duo

/-- The snapshot of two definitions: things are owned by someone who is known, both times. -/
def Snapshot.ofPair : Snapshot :=
  .ofDefinitions (Sweep.readable [⟨"first", text⟩, ⟨"second", text⟩])
where
  text : String := "\x7b\"on\": \x7b\"types\": [\"thing\"]\x7d, \"rules\":
    \x7b\"property\": \"owner.by.urn\", \"operator\": \"exists\"\x7d\x7d"

namespace Duo

/-- Each request is about one of the two definitions. -/
def word : Bool → String
  | true => "first"
  | false => "second"

theorem run_pair : ∃ q q',
    (Evaluation.run .ofOwners .ofPair (.only [word true]) .full [.thing]).run
        (.ofStore .ofOwners [] 0) = (.ok [(.thing, ⟨[⟨word true, .success⟩], []⟩)], q) ∧
      (Evaluation.run .ofOwners .ofPair (.only [word false]) .full [.thing]).run q =
        (.ok [(.thing, ⟨[⟨word false, .success⟩], []⟩)], q') := by
  have hanswers :
      let first := (Evaluation.run .ofOwners .ofPair (.only [word true]) .full [.thing]).run
        (.ofStore .ofOwners [] 0)
      let second :=
        (Evaluation.run .ofOwners .ofPair (.only [word false]) .full [.thing]).run first.2
      first.1.toOption = some [(.thing, ⟨[⟨word true, .success⟩], []⟩)] ∧
        second.1.toOption = some [(.thing, ⟨[⟨word false, .success⟩], []⟩)] := by decide +kernel
  have hok : ∀ {r : Except Failure Evaluation × Platform} {rs : Evaluation},
      r.1.toOption = some rs → r = (.ok rs, r.2) := by
    rintro ⟨e | rs', q⟩ rs h <;> cases h
    rfl
  exact ⟨_, _, hok hanswers.1, hok hanswers.2⟩

theorem stored_in_turn : Snapshot.ofPair.Loaded ∧ (∀ x ∈ [word false], x ∉ [word true]) ∧
    ∃ (t : Bool → Inquiry Evaluation) (schedule : List Bool),
      (∀ i, (t i).Evaluates .ofOwners .ofPair (.only [word i]) [.thing]) ∧
      let d := (start t (.ofStore .ofOwners [] 0)).run .ofPair (fun i => [word i]) schedule
      (∀ i, d.stage i = .returned (.ok [(.thing, ⟨[⟨word i, .success⟩], []⟩)])) ∧
      ∀ i, ⟨word i, .success⟩ ∈ d.storedFor .thing := by
  have hc : Snapshot.ofPair.Loaded := ⟨_, rfl⟩
  have hdisjoint : ∀ x ∈ [word false], x ∉ [word true] := by decide
  refine ⟨hc, hdisjoint, ?_⟩
  choose t ht using fun i => inquires_evaluate .ofOwners .ofPair (.only [word i]) [.thing]
  let rs (i : Bool) : Evaluation := [(.thing, ⟨[⟨word i, .success⟩], []⟩)]
  have hword : ∀ i, ⟨word i, .success⟩ ∈ (rs i).outcomesFor .thing := by decide
  obtain ⟨q, q', hfirst, hsecond⟩ := run_pair
  obtain ⟨before, after, hbefore, hend⟩ := reaches_in_turn rs ht hfirst hsecond
  have hreturned : ∀ i, ((start t (.ofStore .ofOwners [] 0)).run .ofPair (fun i => [word i])
      (before ++ after)).stage i = .returned (.ok (rs i)) := fun i => by rw [hend]
  refine ⟨t, before ++ after, ht, hreturned, ?_⟩
  -- the first request has stored its results when the second one has not begun
  obtain ⟨hown, hother⟩ := (stored_of_returned hc ht hdisjoint hreturned).2.2 before after false rfl
    (by rw [hbefore]; exact ⟨_, rfl⟩) (by rw [hbefore]; rintro ⟨_, h⟩; cases h)
  rintro (_ | _)
  · exact hown _ (hword false)
  · exact hother (by rw [hbefore]; exact fun h => h rfl) _ (hword true)

/-- **An update may be lost**: both requests succeed, and the outcome that the first one returned is
not stored. -/
theorem lost_update : ∃ (t : Bool → Inquiry Evaluation) (schedule : List Bool),
    (∀ i, (t i).Evaluates .ofOwners .ofPair (.only [word i]) [.thing]) ∧
    let d := (start t (.ofStore .ofOwners [] 0)).run .ofPair (fun i => [word i]) schedule
    (∀ i, d.stage i = .returned (.ok [(.thing, ⟨[⟨word i, .success⟩], []⟩)])) ∧
    d.storedFor .thing = [⟨word false, .success⟩] := by
  have hc : Snapshot.ofPair.Loaded := ⟨_, rfl⟩
  choose t ht using fun i => inquires_evaluate .ofOwners .ofPair (.only [word i]) [.thing]
  let p := Platform.ofStore .ofOwners [] 0
  have hp : p.outages = [] := rfl
  obtain ⟨d, ⟨schedule, rfl⟩, hreturned, hstored⟩ := exists_overlap hc ht hp
  have hverdicts : ∀ i, (Snapshot.ofPair.verdicts .ofOwners p.store .thing).restrict
      (.only [word i]) = ⟨[⟨word i, .success⟩], []⟩ := by decide +kernel
  have hmerged : Evaluation.toStore .ofPair ⟨[⟨word false, .success⟩], []⟩
      ((p.store.results? .thing).getD .empty) (.only [word false]) =
      ⟨[⟨word false, .success⟩], []⟩ := by decide +kernel
  rw [hverdicts, hmerged] at hstored
  refine ⟨t, schedule, ht, fun i => ?_, ?_⟩
  · rw [hreturned, hverdicts]
  · rw [storedFor, Platform.storedFor, hstored]
    rfl

end Duo
end CatalogRules

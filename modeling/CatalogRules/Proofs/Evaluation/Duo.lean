import CatalogRules.Proofs.Evaluation.Stages

/-! # Schedules of two requests

Two requests share a platform, and a schedule says whose call is next. A request that is alone from
some point on does what is left of it (`Duo.reaches_returned`), so requests may follow one another.
But nothing keeps them from reading the prior results both before either stores its own, whatever
the entity and the tests (`Duo.exists_overlap`). -/

namespace CatalogRules

open Evaluation

/-- The tree is about the evaluation of some entities. -/
def Inquiry.Evaluates (t : Inquiry Evaluation) (r : Registry) (c : Snapshot) (sel : Selection)
    (us : List Urn) : Prop :=
  t.run = evaluate r c sel us ∧ t.Gives (Answers c sel us)

section

variable {c : Snapshot} {sel : Selection} {u : Urn} {p q : Platform}

/-- The answers to what is asked if nothing is out. -/
theorem Inquiry.Evaluates.exists_run {r : Registry} {t : Inquiry Evaluation}
    (ht : t.Evaluates r c sel [u]) (hc : c.Loaded) (hp : p.outages = []) (hq : p.Alike q) :
    ∃ q', t.run.run q = (.ok [(u, (c.verdicts r p.store u).restrict sel)], q') ∧ p.Alike q' := by
  obtain ⟨_, q', hrun, halike, rfl⟩ :=
    (looks_evaluate r p.store hc sel [u]).gives hq.store (hq.outages.trans hp)
  exact ⟨q', by rw [ht.1, hrun]; rfl, hq.trans halike⟩

/-- The prior results are read if nothing is out. -/
theorem Stage.next_reading (c : Snapshot) (sel : Selection) (rs : Evaluation)
    (hp : p.outages = []) (hq : p.Alike q) : ∃ q', (Stage.reading rs).next c sel q =
      (.writing rs (allToStore c sel p.store rs), q') ∧ p.Alike q' := by
  obtain ⟨_, q', hrun, halike, rfl⟩ :=
    (looks_merged c sel p.store rs).gives hq.store (hq.outages.trans hp)
  exact ⟨q', congrArg (proceed (.writing rs)) hrun, hq.trans halike⟩

/-- Results are stored if nothing is out. -/
theorem Stage.next_writing {rs todo : Evaluation} {w : Results} (hp : p.outages = []) :
    (Stage.writing rs ((u, w) :: todo)).next c sel p =
      (.writing rs todo, p.wrote [(u, w)]) := by
  have hrun : (Run.persistResult u w).run p = (.ok (), p.wrote [(u, w)]) := by
    rw [run_persistResult_eq]
    simp [Platform.outage?, Outages.message?, hp]
  exact congrArg (proceed fun _ => .writing rs todo) hrun

end

/-- Two requests on one platform. -/
structure Duo where
  stage : Bool → Stage
  platform : Platform

namespace Duo

/-- The requests at their beginning. -/
def start (t : Bool → Inquiry Evaluation) (p : Platform) : Duo := ⟨fun i => .asking (t i), p⟩

/-- One of the requests makes its next call. -/
def step (c : Snapshot) (ids : Bool → List String) (d : Duo) (i : Bool) : Duo :=
  let r := (d.stage i).next c (.only (ids i)) d.platform
  ⟨Function.update d.stage i r.1, r.2⟩

/-- The calls of the requests in the order of a schedule. -/
def run (c : Snapshot) (ids : Bool → List String) (d : Duo) (schedule : List Bool) : Duo :=
  schedule.foldl (step c ids) d

/-- What is stored for an entity. -/
def storedFor (d : Duo) (u : Urn) : List Outcome := d.platform.storedFor u

variable {c : Snapshot} {ids : Bool → List String} {u : Urn} {d : Duo} {i : Bool}

theorem run_append (before after : List Bool) :
    d.run c ids (before ++ after) = (d.run c ids before).run c ids after :=
  List.foldl_append

/-! ### Schedules that lead somewhere -/

/-- The state of the first request and of the second one. -/
def pair (a b : Stage) : Bool → Stage
  | true => a
  | false => b

theorem update_pair_true (a b a' : Stage) : Function.update (pair a b) true a' = pair a' b := by
  funext i
  cases i <;> rfl

theorem update_pair_false (a b b' : Stage) : Function.update (pair a b) false b' = pair a b' := by
  funext i
  cases i <;> rfl

theorem start_eq (t : Bool → Inquiry Evaluation) (p : Platform) :
    start t p = ⟨pair (.asking (t true)) (.asking (t false)), p⟩ := by
  unfold start
  congr 1
  funext i
  cases i <;> rfl

/-- Some schedule leads from the one state to the other. -/
def Reaches (c : Snapshot) (ids : Bool → List String) (d d' : Duo) : Prop :=
  ∃ schedule, d.run c ids schedule = d'

theorem Reaches.trans {d₁ d₂ d₃ : Duo} (h : Reaches c ids d₁ d₂) (k : Reaches c ids d₂ d₃) :
    Reaches c ids d₁ d₃ := by
  obtain ⟨before, rfl⟩ := h
  obtain ⟨after, rfl⟩ := k
  exact ⟨before ++ after, run_append before after⟩

variable {s : Bool → Stage} {p q : Platform} {rs : Evaluation}

theorem Reaches.next {x : Stage} (hs : s i = x) (p : Platform) : Reaches c ids ⟨s, p⟩
    ⟨Function.update s i (x.next c (.only (ids i)) p).1, (x.next c (.only (ids i)) p).2⟩ := by
  subst hs
  exact ⟨[i], rfl⟩

theorem Reaches.first {a b x : Stage} (h : a.next c (.only (ids true)) p = (x, q)) :
    Reaches c ids ⟨pair a b, p⟩ ⟨pair x b, q⟩ := by
  have hnext : Reaches c ids _ _ := .next (i := true) (s := pair a b) rfl p
  rw [show pair a b true = a from rfl, h, update_pair_true] at hnext
  exact hnext

theorem Reaches.second {a b x : Stage} (h : b.next c (.only (ids false)) p = (x, q)) :
    Reaches c ids ⟨pair a b, p⟩ ⟨pair a x, q⟩ := by
  have hnext : Reaches c ids _ _ := .next (i := false) (s := pair a b) rfl p
  rw [show pair a b false = b from rfl, h, update_pair_false] at hnext
  exact hnext

/-- Each request makes a call. -/
theorem Reaches.both {a b x y : Stage} {q' : Platform}
    (h : a.next c (.only (ids true)) p = (x, q)) (k : b.next c (.only (ids false)) q = (y, q')) :
    Reaches c ids ⟨pair a b, p⟩ ⟨pair x y, q'⟩ := (Reaches.first h).trans (.second k)

/-- A request that is alone asks all its questions. -/
theorem reaches_reading (t : Inquiry Evaluation) (hs : s i = .asking t)
    (ht : t.run.run p = (.ok rs, q)) :
    Reaches c ids ⟨s, p⟩ ⟨Function.update s i (.reading rs), q⟩ := by
  induction t generalizing s p with
  | done o =>
    cases ht
    exact .next hs q
  | count m t ih =>
    have hrest := ih (s := Function.update s i (.asking t)) (Function.update_self ..) ht
    rw [Function.update_idem] at hrest
    exact (Reaches.next hs p).trans hrest
  | ask t us names rest ih =>
    have hnext : Reaches c ids _ _ := .next hs p
    rw [Stage.next, Inquiry.run_fetchAspects] at hnext
    rw [Inquiry.run_ask] at ht
    cases ho : p.outage? (.fetchAspects t us names) with
    | some message =>
      rw [ho] at ht
      cases ht
    | none =>
      rw [ho] at ht hnext
      have hrest := ih _ (s := Function.update s i (.asking (rest (p.store.fetch us names))))
        (Function.update_self ..) ht
      rw [Function.update_idem] at hrest
      exact hnext.trans hrest

/-- Both requests ask all their questions. -/
theorem reaches_asked {t : Bool → Inquiry Evaluation} {rs rs' : Evaluation} {q' : Platform}
    (h : (t true).run.run p = (.ok rs, q)) (k : (t false).run.run q = (.ok rs', q')) :
    Reaches c ids (start t p) ⟨pair (.reading rs) (.reading rs'), q'⟩ := by
  have hfirst : Reaches c ids _ _ := reaches_reading (i := true)
    (s := pair (.asking (t true)) (.asking (t false))) (t true) rfl h
  have hsecond : Reaches c ids _ _ := reaches_reading (i := false)
    (s := pair (.reading rs) (.asking (t false))) (t false) rfl k
  rw [update_pair_true] at hfirst
  rw [update_pair_false] at hsecond
  rw [start_eq]
  exact hfirst.trans hsecond

/-- A request that is alone from here on does what is left of it. -/
def Finishes (c : Snapshot) (ids : Bool → List String) (i : Bool) (x : Stage) : Prop :=
  ∀ (s : Bool → Stage) (p : Platform), s i = x → Reaches c ids ⟨s, p⟩
    ⟨Function.update s i (.returned ((x.rest c (.only (ids i))).run p).1),
      ((x.rest c (.only (ids i))).run p).2⟩

theorem finishes_of_next {x : Stage}
    (h : ∀ p, Finishes c ids i (x.next c (.only (ids i)) p).1) : Finishes c ids i x := by
  intro s p hs
  have hrest := h p (Function.update s i (x.next c (.only (ids i)) p).1)
    (x.next c (.only (ids i)) p).2 (Function.update_self ..)
  rw [Function.update_idem, ← Stage.rest_next] at hrest
  exact (Reaches.next hs p).trans hrest

theorem finishes_proceed {α : Type} {g : α → Stage} (h : ∀ a, Finishes c ids i (g a))
    (r : Except Failure α × Platform) : Finishes c ids i (Stage.proceed g r).1 := by
  rcases r with ⟨e | a, q⟩
  · exact fun s p hs => .next hs p
  · exact h a

theorem finishes_returned (o : Except Failure Evaluation) : Finishes c ids i (.returned o) :=
  fun _ p hs => .next hs p

theorem finishes_acting (todo : List (Action × List Urn)) : Finishes c ids i (.acting rs todo) := by
  induction todo with
  | nil => exact finishes_of_next fun _ => finishes_returned (.ok rs)
  | cons a todo ih => exact finishes_of_next fun _ => ih

theorem finishes_writing (todo : Evaluation) : Finishes c ids i (.writing rs todo) := by
  induction todo with
  | nil => exact finishes_of_next fun _ => finishes_acting _
  | cons w todo ih => exact finishes_of_next fun _ => finishes_proceed (fun _ => ih) _

theorem finishes_reading : Finishes c ids i (.reading rs) :=
  finishes_of_next fun _ => finishes_proceed finishes_writing _

theorem finishes_asking (t : Inquiry Evaluation) : Finishes c ids i (.asking t) := by
  induction t with
  | done o =>
    cases o with
    | ok rs => exact finishes_of_next fun _ => finishes_reading
    | error e => exact finishes_of_next fun _ => finishes_returned (.error e)
  | count m t ih => exact finishes_of_next fun _ => ih
  | ask t us names rest ih => exact finishes_of_next fun _ => finishes_proceed ih _

/-- **A request that is alone does what an evaluation does.** -/
theorem reaches_returned {r : Registry} {t : Inquiry Evaluation}
    (ht : t.Evaluates r c (.only (ids i)) [u]) (hs : s i = .asking t) (p : Platform) :
    Reaches c ids ⟨s, p⟩
      ⟨Function.update s i (.returned ((Evaluation.run r c (.only (ids i)) .full [u]).run p).1),
        ((Evaluation.run r c (.only (ids i)) .full [u]).run p).2⟩ := by
  have hrest : (Stage.asking t).rest c (.only (ids i)) =
      Evaluation.run r c (.only (ids i)) .full [u] := Stage.rest_asking ht.1
  rw [← hrest]
  exact finishes_asking t s p hs

/-- One request is alone first, and then the other one is. -/
theorem reaches_in_turn {r : Registry} {t : Bool → Inquiry Evaluation} (rs : Bool → Evaluation)
    {q' : Platform} (ht : ∀ i, (t i).Evaluates r c (.only (ids i)) [u])
    (hfirst : (Evaluation.run r c (.only (ids true)) .full [u]).run p = (.ok (rs true), q))
    (hsecond : (Evaluation.run r c (.only (ids false)) .full [u]).run q = (.ok (rs false), q')) :
    ∃ before after,
      (start t p).run c ids before =
        ⟨pair (.returned (.ok (rs true))) (.asking (t false)), q⟩ ∧
      (start t p).run c ids (before ++ after) = ⟨fun i => .returned (.ok (rs i)), q'⟩ := by
  have h₁ : Reaches c ids _ _ :=
    reaches_returned (s := pair (.asking (t true)) (.asking (t false))) (ht true) rfl p
  have h₂ : Reaches c ids _ _ := reaches_returned
    (s := pair (.returned (.ok (rs true))) (.asking (t false))) (ht false) rfl q
  rw [hfirst, update_pair_true, ← start_eq] at h₁
  rw [hsecond, update_pair_false] at h₂
  obtain ⟨before, hbefore⟩ := h₁
  obtain ⟨after, hafter⟩ := h₂
  refine ⟨before, after, hbefore, ?_⟩
  rw [run_append, hbefore, hafter]
  congr 1
  funext i
  cases i <;> rfl

theorem reaches_applied (todo : List (Action × List Urn)) (hs : s i = .acting rs todo)
    (p : Platform) : ∃ q, Reaches c ids ⟨s, p⟩ ⟨Function.update s i (.returned (.ok rs)), q⟩ ∧
      q.store.resultsValue? = p.store.resultsValue? := by
  obtain ⟨q, happly, -, hresults⟩ := run_applyAll todo p
  have hreach : Reaches c ids _ _ := finishes_acting todo s p hs
  rw [Stage.rest, Run.run_bind, happly] at hreach
  exact ⟨q, hreach, hresults⟩

/-- **Reading before the other one stores loses an update**: if nothing is out, some schedule lets
both requests succeed while only what the second one merged with the prior results is stored. -/
theorem exists_overlap {r : Registry} (hc : c.Loaded) {t : Bool → Inquiry Evaluation}
    (ht : ∀ i, (t i).Evaluates r c (.only (ids i)) [u]) (hp : p.outages = []) :
    ∃ d, Reaches c ids (start t p) d ∧
      (∀ i, d.stage i =
        .returned (.ok [(u, (c.verdicts r p.store u).restrict (.only (ids i)))])) ∧
      d.platform.store.results? u = some (toStore c
        ((c.verdicts r p.store u).restrict (.only (ids false)))
        ((p.store.results? u).getD .empty) (.only (ids false))) := by
  let rs (i : Bool) : Evaluation := [(u, (c.verdicts r p.store u).restrict (.only (ids i)))]
  let ws (i : Bool) : Results := toStore c ((c.verdicts r p.store u).restrict (.only (ids i)))
    ((p.store.results? u).getD .empty) (.only (ids i))
  let acting (i : Bool) : Stage := .acting (rs i) (dispatch c (rs i))
  -- both ask, both read, and then they store, the second one last
  obtain ⟨q₁, hq₁, halike₁⟩ := (ht true).exists_run hc hp (.refl p)
  obtain ⟨q₂, hq₂, halike₂⟩ := (ht false).exists_run hc hp halike₁
  obtain ⟨q₃, hq₃, halike₃⟩ := Stage.next_reading c (.only (ids true)) (rs true) hp halike₂
  obtain ⟨q₄, hq₄, halike₄⟩ := Stage.next_reading c (.only (ids false)) (rs false) hp halike₃
  let q₅ := (q₄.wrote [(u, ws true)]).wrote [(u, ws false)]
  have hasked : Reaches c ids (start t p) ⟨pair (.reading (rs true)) (.reading (rs false)), q₂⟩ :=
    reaches_asked hq₁ hq₂
  have hread : Reaches c ids ⟨pair (.reading (rs true)) (.reading (rs false)), q₂⟩
      ⟨pair (.writing (rs true) [(u, ws true)]) (.writing (rs false) [(u, ws false)]), q₄⟩ :=
    .both hq₃ hq₄
  have hstored : Reaches c ids
      ⟨pair (.writing (rs true) [(u, ws true)]) (.writing (rs false) [(u, ws false)]), q₄⟩
      ⟨pair (.writing (rs true) []) (.writing (rs false) []), q₅⟩ :=
    .both (Stage.next_writing (halike₄.outages.trans hp))
      (Stage.next_writing (halike₄.outages.trans hp))
  have hacting : Reaches c ids ⟨pair (.writing (rs true) []) (.writing (rs false) []), q₅⟩
      ⟨pair (acting true) (acting false), q₅⟩ := .both rfl rfl
  obtain ⟨q₆, hq₆, hresults₆⟩ :=
    reaches_applied (i := true) (s := pair (acting true) (acting false)) _ rfl q₅
  obtain ⟨q₇, hq₇, hresults₇⟩ :=
    reaches_applied (i := false) (s := pair (.returned (.ok (rs true))) (acting false)) _ rfl q₆
  rw [update_pair_true] at hq₆
  rw [update_pair_false] at hq₇
  refine ⟨_, hasked.trans (hread.trans (hstored.trans (hacting.trans (hq₆.trans hq₇)))),
    fun i => by cases i <;> rfl, ?_⟩
  show q₇.store.results? u = some (ws false)
  rw [Store.results?_eq, hresults₇, hresults₆]
  show (Store.resultsValue? (Store.putResults _ _ u (ws false)) u).bind _ = _
  rw [Store.resultsValue?_putResults, if_pos rfl, Option.bind_some, Results.ofValue?_toValue]

end Duo
end CatalogRules

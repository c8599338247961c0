import CatalogRules.Proofs.Cache.Loaded
import Mathlib.Data.Nat.Find

/-! # Refreshing from a script

A source of definitions may be a script: a list of pages, each of which may fail, and empty pages
after them. A sweep of a script stops at the first place where there is a failure, an empty page or
a page whose total is reached by the items read so far (`Script.StopsFirst`); there always is such a
place (`Script.exists_stopsFirst`). `Sweep.run_within` says that a sweep reads the script up to this
place, page by page, and what it gives; `Cache.run_refresh` says the same of a refresh.

`Swept` tells, along any number of refreshes, what is left of the script and which items were read
by the last refresh that succeeded. The cache always holds the snapshot of these items, and its next
refresh reads what is left of the script (`refresh_reads_script`). -/

namespace CatalogRules

/-! ### Scripts -/

/-- Pages that are served one by one. -/
abbrev Script := List ScriptedPage

namespace Script

/-- The page in some place; a script that is used up serves empty pages. -/
def page (script : Script) (i : Nat) : ScriptedPage := script.getD i (.ok ⟨[], 0⟩)

/-- The items on a page; a failure has none. -/
def itemsOn : ScriptedPage → List RawDefinition
  | .ok page => page.items
  | .error _ => []

/-- The items on the first pages. -/
def items (script : Script) (n : Nat) : List RawDefinition :=
  (List.range n).flatMap fun i => itemsOn (script.page i)

/-- **There is a failure, an empty page, or a page whose total is reached by the items so far.** -/
def Stops (script : Script) (n : Nat) : Prop :=
  match script.page n with
  | .error _ => True
  | .ok page => page.items = [] ∨ page.total ≤ (script.items (n + 1)).length

/-- The place is the first one to stop at. -/
structure StopsFirst (script : Script) (n : Nat) : Prop where
  stops : script.Stops n
  first : ∀ i < n, ¬ script.Stops i

variable {script : Script} {n i : Nat}

theorem page_of_le (h : script.length ≤ n) : script.page n = .ok ⟨[], 0⟩ := by
  rw [page, List.getD_eq_getElem?_getD, List.getElem?_eq_none h, Option.getD_none]

theorem page_drop (script : Script) (i j : Nat) : page (script.drop i) j = script.page (i + j) := by
  rw [page, page, List.getD_eq_getElem?_getD, List.getElem?_drop, List.getD_eq_getElem?_getD]

theorem items_succ (script : Script) (n : Nat) :
    script.items (n + 1) = script.items n ++ itemsOn (script.page n) := by
  rw [items, List.range_succ, List.flatMap_append, List.flatMap_singleton, items]

/-- There is a place to stop at, not beyond the end of the script. -/
theorem exists_stopsFirst (script : Script) : ∃ n, script.StopsFirst n ∧ n ≤ script.length := by
  classical
  have hend : script.Stops script.length := by
    rw [Stops, page_of_le le_rfl]
    exact Or.inl rfl
  have hex : ∃ n, script.Stops n := ⟨_, hend⟩
  exact ⟨Nat.find hex, ⟨Nat.find_spec hex, fun i hi => Nat.find_min hex hi⟩, Nat.find_min' hex hend⟩

theorem StopsFirst.eq_of_stops (h : script.StopsFirst n) (hi : i ≤ n) (hs : script.Stops i) :
    i = n := by
  rcases Nat.lt_or_eq_of_le hi with hlt | heq
  · exact absurd hs (h.first i hlt)
  · exact heq

end Script

/-! ### Fetching from a script -/

namespace Platform

/-- Definitions are served from the script, and there is no outage. -/
structure Serves (p : Platform) (script : Script) : Prop where
  source : p.definitions = .script script
  up : ∀ place offset count, p.outages.message? place (.fetchDefinitions offset count) = none

/-- The platform after some calls that leave the given script. -/
def served (p : Platform) (calls : List Call) (script : Script) : Platform :=
  { p with calls := p.calls ++ calls, definitions := .script script }

variable {p : Platform} {script : Script}

theorem Serves.served (h : p.Serves script) (calls : List Call) (rest : Script) :
    (p.served calls rest).Serves rest := ⟨rfl, h.up⟩

theorem served_served (p : Platform) (cs ds : List Call) (script rest : Script) :
    (p.served cs script).served ds rest = p.served (cs ++ ds) rest := by
  simp only [Platform.served, List.append_assoc]

end Platform

theorem Run.run_fetchDefinitions {p : Platform} {script : Script} (h : p.Serves script)
    (offset count : Nat) : (Run.fetchDefinitions offset count).run p =
      ((script.page 0).mapError .definitionFetch,
        p.served [.fetchDefinitions offset count] (script.drop 1)) := by
  unfold Run.fetchDefinitions
  rw [run_bind, run_call, show p.outage? _ = none from h.up _ _ _]
  dsimp only
  rw [run_get_bind]
  dsimp only
  rw [h.source]
  rcases script with _ | ⟨_ | page, rest⟩
  · simp only [run_pure, Platform.served, List.drop_nil]
    rfl
  · rfl
  · rfl

/-! ### Sweeps -/

namespace Sweep

/-- What a sweep has read with the first pages of a script. -/
def upTo (script : Script) (n : Nat) : Sweep := ⟨(script.items n).length, readable (script.items n)⟩

/-- The call for the page in some place. -/
def callAt (script : Script) (pageSize i : Nat) : Call :=
  .fetchDefinitions (script.items i).length pageSize

variable {script : Script} {n i : Nat} {page : DefinitionPage}

theorem take_upTo (h : script.page i = .ok page) :
    (upTo script i).take page = upTo script (i + 1) := by
  simp only [upTo, take, Script.items_succ, h, Script.itemsOn, List.length_append, readable,
    List.filterMap_append]

theorem isDone_iff_stops (h : script.page i = .ok page) :
    (upTo script (i + 1)).isDone page = true ↔ script.Stops i := by
  rw [isDone, Bool.or_eq_true, Script.Stops, h]
  exact or_congr List.isEmpty_iff decide_eq_true_iff

/-- What a sweep gives that stops at some place: the failure, if there is one, and otherwise what was
read with all pages up to this place. -/
def outcome (script : Script) (n : Nat) : Except Failure Sweep :=
  match script.page n with
  | .ok _ => .ok (upTo script (n + 1))
  | .error message => .error (.definitionFetch message)

/-- **A sweep reads a script page by page up to the first place to stop at.** -/
theorem run_within (hn : script.StopsFirst n) (pageSize : Nat) : ∀ (fuel i : Nat) {p : Platform},
    p.Serves (script.drop i) → i ≤ n → n < i + fuel →
    (within pageSize fuel (upTo script i)).run p =
      (outcome script n,
        p.served ((List.range' i (n + 1 - i)).map (callAt script pageSize)) (script.drop (n + 1)))
  | 0, i, _, _, hi, hf => by omega
  | fuel + 1, i, p, hp, hi, hf => by
    have hpage : Script.page (script.drop i) 0 = script.page i := Script.page_drop script i 0
    have hrange : (List.range' i (n + 1 - i)).map (callAt script pageSize) =
        [callAt script pageSize i] ++
          (List.range' (i + 1) (n + 1 - (i + 1))).map (callAt script pageSize) := by
      rw [show n + 1 - i = (n + 1 - (i + 1)) + 1 by omega, List.range'_succ]
      rfl
    unfold within
    rw [Run.run_bind, Run.run_fetchDefinitions hp, hpage, List.drop_drop, hrange]
    cases hi' : script.page i with
    | error message =>
      -- a failure is a place to stop at
      obtain rfl := hn.eq_of_stops hi (by rw [Script.Stops, hi']; trivial)
      simp [outcome, hi', upTo, callAt, Except.mapError]
    | ok page =>
      dsimp only [Except.mapError]
      rw [take_upTo hi']
      by_cases hs : script.Stops i
      · obtain rfl := hn.eq_of_stops hi hs
        rw [if_pos ((isDone_iff_stops hi').mpr hs), Run.run_pure]
        simp [outcome, hi', upTo, callAt]
      · have hne : i ≠ n := fun h => hs (h ▸ hn.stops)
        rw [if_neg (mt (isDone_iff_stops hi').mp hs),
          run_within hn pageSize fuel (i + 1) (hp.served _ _) (by omega) (by omega),
          Platform.served_served]
        rfl

/-- A whole sweep of a script. -/
theorem run_run {p : Platform} (hp : p.Serves script) (hn : script.StopsFirst n)
    (hlength : n ≤ script.length) (pageSize : Nat) : (run pageSize).run p =
      (outcome script n,
        p.served ((List.range (n + 1)).map (callAt script pageSize)) (script.drop (n + 1))) := by
  unfold run
  rw [Run.run_get_bind, pagesLeft, hp.source, List.range_eq_range']
  exact run_within hn pageSize _ 0 hp (Nat.zero_le n) (by dsimp only; omega)

end Sweep

/-! ### Refreshing -/

namespace Cache

open Sweep (readable callAt)

variable {script : Script} {n : Nat}

theorem run_load {p : Platform} (hp : p.Serves script) (hn : script.StopsFirst n)
    (hlength : n ≤ script.length) (pageSize : Nat) : ∃ q, (load pageSize).run p =
      ((Sweep.outcome script n).map fun sweep => .ofDefinitions sweep.found, q) ∧
      q.Serves (script.drop (n + 1)) ∧
      q.calls = p.calls ++ (List.range (n + 1)).map (callAt script pageSize) := by
  unfold load
  rw [Run.run_bind, Run.run_tryCatch, Sweep.run_run hp hn hlength]
  unfold Sweep.outcome
  cases script.page n with
  | error message => exact ⟨_, rfl, ⟨rfl, hp.up⟩, rfl⟩
  | ok page => exact ⟨_, rfl, ⟨rfl, hp.up⟩, rfl⟩

/-- What a refresh answers, and what it makes of the cache, if its sweep stops at some place. -/
def refreshed (c : Cache) (script : Script) (n : Nat) : Except Failure Nat × Cache :=
  match script.page n with
  | .ok _ =>
    let s := Snapshot.ofDefinitions (readable (script.items (n + 1)))
    (.ok s.size, { c with snapshot := s })
  | .error message => (.error (.definitionFetch message), c)

/-- **A refresh reads the script up to the first place to stop at, and replaces the snapshot if there
is no failure.** -/
theorem run_refresh (c : Cache) {p : Platform} (hp : p.Serves script) (hn : script.StopsFirst n)
    (hlength : n ≤ script.length) : ∃ q, c.refresh.run p = (c.refreshed script n, q) ∧
      q.Serves (script.drop (n + 1)) ∧
      q.calls = p.calls ++ (List.range (n + 1)).map (callAt script c.pageSize) := by
  obtain ⟨q, hq, hserves, hcalls⟩ := run_load hp hn hlength c.pageSize
  refine ⟨q, ?_, hserves, hcalls⟩
  unfold refresh refreshed
  simp only [StateT.run, bind, StateT.bind]
  rw [show (load c.pageSize).run p = _ from hq, Sweep.outcome]
  cases script.page n <;> rfl

/-- The cache and the platform after some refreshes. -/
def after (c : Cache) (p : Platform) : Nat → Cache × Platform
  | 0 => (c, p)
  | k + 1 =>
    let (c, p) := c.after p k
    let ((_, c), p) := c.refresh.run p
    (c, p)

theorem after_succ (c : Cache) (p : Platform) (k : Nat) : c.after p (k + 1) =
    (((c.after p k).1.refresh.run (c.after p k).2).1.2,
      ((c.after p k).1.refresh.run (c.after p k).2).2) := rfl

end Cache

/-- **The course of some refreshes**: what is left of the script, and the items that were read by the
last refresh that succeeded. -/
inductive Swept (script : Script) : Nat → Script → List RawDefinition → Prop
  | start : Swept script 0 script []
  | loaded {k : Nat} {rest : Script} {items : List RawDefinition} {n : Nat} {page : DefinitionPage}
    (before : Swept script k rest items) (stop : rest.StopsFirst n) (read : rest.page n = .ok page) :
    Swept script (k + 1) (rest.drop (n + 1)) (rest.items (n + 1))
  | failed {k : Nat} {rest : Script} {items : List RawDefinition} {n : Nat} {message : String}
    (before : Swept script k rest items) (stop : rest.StopsFirst n)
    (failure : rest.page n = .error message) :
    Swept script (k + 1) (rest.drop (n + 1)) items

namespace Cache

/-- After some refreshes the cache holds the snapshot of the items that were read by the last of
them that succeeded. -/
theorem after_swept {script : Script} {p : Platform} (hp : p.Serves script) (pageSize : Nat) :
    ∀ k, ∃ rest items, Swept script k rest items ∧
      ((ofPageSize pageSize).after p k).2.Serves rest ∧
      ((ofPageSize pageSize).after p k).1 =
        ⟨max pageSize 1, .ofDefinitions (Sweep.readable items)⟩
  | 0 => ⟨script, [], .start, hp, rfl⟩
  | k + 1 => by
    obtain ⟨rest, items, hswept, hserves, hcache⟩ := after_swept hp pageSize k
    obtain ⟨n, hn, hlength⟩ := rest.exists_stopsFirst
    obtain ⟨q, hrun, hserves', -⟩ :=
      run_refresh ((ofPageSize pageSize).after p k).1 hserves hn hlength
    rw [after_succ, hrun, refreshed, hcache]
    cases hpage : rest.page n with
    | error message => exact ⟨_, items, hswept.failed hn hpage, hserves', rfl⟩
    | ok page => exact ⟨_, _, hswept.loaded hn hpage, hserves', rfl⟩

/-- **After any number of refreshes from a script** the two indexes of the snapshot hold the
definitions among the items that the last successful refresh read. **The next refresh** reads what is
left of the script, page by page up to the first place to stop at. If there is a failure, it is the
answer, and the cache stays as it is; otherwise the snapshot is the one of the definitions that can
be read among the items up to this place, and the answer is the number of their ids. -/
theorem refresh_reads_script (pageSize : Nat) (script : Script) (p : Platform)
    (hp : p.Serves script) (k : Nat) : ∃ rest items n, Swept script k rest items ∧
      rest.StopsFirst n ∧ n ≤ rest.length ∧
      let c := ((ofPageSize pageSize).after p k).1
      let q := ((ofPageSize pageSize).after p k).2
      q.Serves rest ∧ c.pageSize = max pageSize 1 ∧
      c.snapshot = .ofDefinitions (Sweep.readable items) ∧ c.snapshot.Holds (Sweep.readable items) ∧
      (c.refresh.run q).1 = c.refreshed rest n ∧
      (c.refresh.run q).2.Serves (rest.drop (n + 1)) ∧
      (c.refresh.run q).2.calls =
        q.calls ++ (List.range (n + 1)).map (Sweep.callAt rest c.pageSize) := by
  obtain ⟨rest, items, hswept, hserves, hcache⟩ := after_swept hp pageSize k
  obtain ⟨n, hn, hlength⟩ := rest.exists_stopsFirst
  obtain ⟨q, hrun, hserves', hcalls⟩ :=
    run_refresh ((ofPageSize pageSize).after p k).1 hserves hn hlength
  refine ⟨rest, items, n, hswept, hn, hlength, hserves, by rw [hcache], by rw [hcache], ?_, ?_⟩
  · rw [hcache]
    exact Snapshot.holds_readable items
  · rw [hrun]
    exact ⟨rfl, hserves', hcalls⟩

end Cache

/-- A definition about things, an item that is none, and a definition about places with the id of the
first one, on two pages; then a failure. -/
def Script.retargeting : Script :=
  [.ok ⟨[⟨"known", "\x7b\"on\": \x7b\"types\": [\"thing\"]\x7d, \"rules\":
      \x7b\"property\": \"urn\", \"operator\": \"exists\"\x7d\x7d"⟩, ⟨"none", "\x7b\x7d"⟩], 3⟩,
    .ok ⟨[⟨"known", "\x7b\"on\": \x7b\"types\": [\"place\"]\x7d, \"rules\":
      \x7b\"property\": \"urn\", \"operator\": \"exists\"\x7d\x7d"⟩], 3⟩,
    .error "down"]

theorem Cache.refresh_retargeted :
    let p := (Platform.ofStore .empty [] 0).served [] Script.retargeting
    let c := ((ofPageSize 0).after p 2).1
    p.Serves Script.retargeting ∧ (∃ items, c.snapshot.Holds (Sweep.readable items)) ∧
      c.snapshot.entityTypes = ["place"] ∧ (c.snapshot.forType "place").map (·.id) = ["known"] := by
  intro p c
  have hp : p.Serves Script.retargeting := ⟨rfl, fun _ _ _ => rfl⟩
  obtain ⟨rest, items, n, -, -, -, -, -, -, hholds, -⟩ :=
    refresh_reads_script 0 Script.retargeting p hp 2
  exact ⟨hp, ⟨items, hholds⟩, by decide +kernel, by decide +kernel⟩

end CatalogRules

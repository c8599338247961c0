import CatalogRules.Proofs.Cache.RefreshLoop
import CatalogRules.Proofs.Looking

/-! # A refresh between two steps

A refresh fetches page after page and then replaces the snapshot. Between any two of these steps
others may take theirs: `Refreshing` says where a refresh stands, and `Refreshing.next` takes its
next step. What a refresh goes on with are always the definitions that can be read among the items
that it has fetched itself (`Refreshing.HasRead.next`).

The bound on the number of pages of a sweep is large enough if nobody else is there
(`Sweep.enough_start`, `Sweep.Enough.take`). -/

namespace CatalogRules

open Sweep (readable)

/-- Where a refresh stands: it has not begun, it is about to fetch the page after what its sweep has
read so far, it is about to replace the snapshot, or it returned. -/
inductive Refreshing where
  | waiting
  | fetching (s : Sweep)
  | replacing (s : Snapshot)
  | returned (o : Except Failure Snapshot)

namespace Refreshing

/-! ### The steps of a refresh -/

/-- Counts a refresh that failed. -/
def noteFailure (p : Platform) : Platform :=
  { p with metrics := p.metrics.increment (.cacheRefreshes false) }

/-- Counts a refresh that succeeded. -/
def noteSuccess (s : Snapshot) (p : Platform) : Platform :=
  { p with metrics := (p.metrics.increment (.cacheRefreshes true)).set .cachedDefinitions s.size }

/-- What a sweep goes on with, given the answer to its question for a page. -/
def turnPage (s : Sweep) : Except Failure DefinitionPage × Platform → Refreshing × Platform
  | (.ok page, p) =>
    let s := s.take page
    (if s.isDone page then .replacing (.ofDefinitions s.found) else .fetching s, p)
  | (.error e, p) => (.returned (.error e), noteFailure p)

/-- What the sweep has read so far, if it is still going on. -/
def sweep? : Refreshing → Option Sweep
  | .waiting => some .start
  | .fetching s => some s
  | .replacing _ | .returned _ => none

/-- The answer to the question for the page after what the sweep has read. -/
def answer (s : Sweep) (c : Cache) (p : Platform) : Except Failure DefinitionPage × Platform :=
  (Run.fetchDefinitions s.offset c.pageSize).run p

/-- Fetches the page after what the sweep has read. -/
def fetch (s : Sweep) (c : Cache) (p : Platform) : Refreshing × Cache × Platform :=
  ((turnPage s (answer s c p)).1, c, (turnPage s (answer s c p)).2)

/-- Takes the next step. -/
def next (r : Refreshing) (c : Cache) (p : Platform) : Refreshing × Cache × Platform :=
  match r with
  | .waiting => fetch .start c p
  | .fetching s => fetch s c p
  | .replacing s => (.returned (.ok s), { c with snapshot := s }, noteSuccess s p)
  | .returned o => (.returned o, c, p)

/-- The items that the next step fetches. -/
def fetched (r : Refreshing) (c : Cache) (p : Platform) : List RawDefinition :=
  match r.sweep? with
  | some s => ((answer s c p).1.toOption.map (·.items)).getD []
  | none => []

/-- The refresh has replaced the snapshot. -/
def HasReplaced (r : Refreshing) : Prop := ∃ s, r = .returned (.ok s)

variable {r : Refreshing} {c : Cache} {p : Platform} {s : Sweep} {items : List RawDefinition}

theorem next_of_sweep? (h : r.sweep? = some s) (c : Cache) (p : Platform) :
    r.next c p = fetch s c p := by
  cases r <;> cases h <;> rfl

theorem not_hasReplaced_turnPage (s : Sweep) (a : Except Failure DefinitionPage × Platform) :
    ¬ (turnPage s a).1.HasReplaced := by
  rintro ⟨t, ht⟩
  rcases a with ⟨e | page, q⟩
  · cases ht
  · dsimp only [turnPage] at ht
    split_ifs at ht

/-- A step replaces the snapshot by the one that it returns, or leaves the cache as it is. -/
theorem next_cases (r : Refreshing) (c : Cache) (p : Platform) :
    (∃ s, (r.next c p).1 = .returned (.ok s) ∧ (r.next c p).2.1 = { c with snapshot := s }) ∨
      (r.next c p).2.1 = c ∧ ((r.next c p).1.HasReplaced → (r.next c p).1 = r) := by
  cases r with
  | waiting => exact .inr ⟨rfl, fun h => absurd h (not_hasReplaced_turnPage .start _)⟩
  | fetching s => exact .inr ⟨rfl, fun h => absurd h (not_hasReplaced_turnPage s _)⟩
  | replacing s => exact .inl ⟨s, rfl, rfl⟩
  | returned o => exact .inr ⟨rfl, fun _ => rfl⟩

/-! ### What a refresh has read -/

/-- What a refresh goes on with are the definitions that can be read among the items. -/
def HasRead (items : List RawDefinition) : Refreshing → Prop
  | .waiting => items = []
  | .fetching s => s.found = readable items
  | .replacing s | .returned (.ok s) => s = .ofDefinitions (readable items)
  | .returned (.error _) => True

theorem hasRead_turnPage (h : s.found = readable items)
    (a : Except Failure DefinitionPage × Platform) :
    (turnPage s a).1.HasRead (items ++ (a.1.toOption.map (·.items)).getD []) := by
  rcases a with ⟨e | page, q⟩
  · trivial
  · have hfound : (s.take page).found = readable (items ++ page.items) := by
      rw [Sweep.take, h, readable, readable, readable, List.filterMap_append]
    show HasRead (items ++ page.items) (if _ then _ else _)
    split_ifs
    · exact congrArg Snapshot.ofDefinitions hfound
    · exact hfound

/-- A step adds the items that it fetches. -/
theorem HasRead.next (h : r.HasRead items) (c : Cache) (p : Platform) :
    (r.next c p).1.HasRead (items ++ r.fetched c p) := by
  cases r with
  | waiting =>
    cases h
    have hstart : Sweep.start.found = readable [] := rfl
    exact hasRead_turnPage hstart _
  | fetching s => exact hasRead_turnPage h _
  | replacing s =>
    rw [show fetched _ c p = [] from rfl, List.append_nil]
    exact h
  | returned o =>
    rw [show fetched _ c p = [] from rfl, List.append_nil]
    exact h

/-! ### A whole refresh -/

/-- What has become of a refresh when its sweep has ended. -/
def swept (c : Cache) : Except Failure Sweep × Platform → Refreshing × Cache × Platform
  | (.ok s, q) => (.replacing (.ofDefinitions s.found), c, q)
  | (.error e, q) => (.returned (.error e), c, noteFailure q)

/-- What becomes of a whole refresh. -/
theorem run_load_eq (n : Nat) (p : Platform) : (Cache.load n).run p =
    match (Sweep.run n).run p with
      | (.ok s, q) => (.ok (.ofDefinitions s.found), noteSuccess (.ofDefinitions s.found) q)
      | (.error e, q) => (.error e, noteFailure q) := by
  unfold Cache.load
  rw [Run.run_bind, Run.run_tryCatch]
  rcases (Sweep.run n).run p with ⟨e | s, q⟩ <;> rfl

end Refreshing

/-! ### How many pages are left -/

/-- Where a page comes from, and what is left of a script. -/
theorem Run.of_fetchDefinitions {offset count : Nat} {p q : Platform} {page : DefinitionPage}
    (h : (Run.fetchDefinitions offset count).run p = (.ok page, q)) :
    match p.definitions with
      | .store => page = p.store.definitionPage offset count ∧ q.definitions = .store ∧
          q.store = p.store
      | .script [] => page = ⟨[], 0⟩
      | .script (_ :: pages) => q.definitions = .script pages := by
  unfold Run.fetchDefinitions at h
  rw [Run.run_bind, Run.run_call] at h
  cases ho : p.outage? (.fetchDefinitions offset count) with
  | some message =>
    rw [ho] at h
    cases h
  | none =>
    rw [ho] at h
    dsimp only at h
    rw [Run.run_get_bind] at h
    rcases hp : p.definitions with _ | ⟨_ | ⟨_ | page', pages⟩⟩ <;> dsimp only at h <;>
      rw [hp] at h <;> cases h
    · exact ⟨rfl, rfl, rfl⟩
    · rfl
    · rfl

namespace Sweep

/-- The bound on the number of pages is large enough for the rest of the sweep. -/
def Enough (fuel : Nat) (s : Sweep) (p : Platform) : Prop :=
  match p.definitions with
  | .store => 0 < fuel ∧ p.store.definitions.length < s.offset + fuel
  | .script pages => pages.length < fuel

theorem enough_start (p : Platform) : Enough (pagesLeft p) .start p := by
  unfold Enough pagesLeft
  cases p.definitions with
  | store => exact ⟨Nat.succ_pos _, by simp [start]⟩
  | script pages => exact Nat.lt_succ_self _

theorem Enough.pos {fuel : Nat} {s : Sweep} {p : Platform} (h : Enough fuel s p) : 0 < fuel := by
  unfold Enough at h
  cases hp : p.definitions with
  | store =>
    rw [hp] at h
    exact h.1
  | script pages =>
    rw [hp] at h
    exact Nat.zero_lt_of_lt h

/-- A page that does not end the sweep leaves less to read. -/
theorem Enough.take {fuel : Nat} {s : Sweep} {p q : Platform} {page : DefinitionPage} {count : Nat}
    (h : Enough (fuel + 1) s p)
    (hpage : (Run.fetchDefinitions s.offset count).run p = (.ok page, q))
    (hdone : ¬ (s.take page).isDone page = true) : Enough fuel (s.take page) q := by
  rw [isDone, Bool.or_eq_true, not_or, decide_eq_true_eq, not_le, List.isEmpty_iff,
    take_offset] at hdone
  obtain ⟨hitems, htotal⟩ := hdone
  have hfrom := Run.of_fetchDefinitions hpage
  unfold Enough at h ⊢
  rcases hp : p.definitions with _ | ⟨_ | ⟨page', pages⟩⟩ <;> rw [hp] at hfrom h <;>
    dsimp only at hfrom h
  · obtain ⟨rfl, hq, hstore⟩ := hfrom
    rw [hq, hstore, take_offset]
    have hpos := List.length_pos_iff.mpr hitems
    have htotal' : s.offset + _ < p.store.definitions.length := htotal
    dsimp only
    omega
  · subst hfrom
    exact absurd rfl hitems
  · rw [hfrom]
    exact Nat.lt_of_succ_lt_succ h

end Sweep

end CatalogRules

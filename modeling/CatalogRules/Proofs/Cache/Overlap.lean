import CatalogRules.Proofs.Cache.Refreshing
import Mathlib.Data.List.Induction
import Mathlib.Logic.Function.Basic

/-! # Two refreshes at the same time

In an `Overlap` two refreshes of one cache are under way, while definitions are put into the store
and removed from it, and a schedule says whose step is next. A refresh that is alone does what
`Cache.refresh` does (`Overlap.reaches_refreshed`).

No refresh waits for the other one, and nothing tells which of two snapshots was read later. So the
snapshot that remains is the one of the refresh that replaces it last
(`Overlap.snapshot_of_returned`), whichever began first, and the cache may go back to definitions
that were read earlier (`Overlap.goes_back`). -/

namespace CatalogRules

open Sweep (readable)
open Refreshing (swept run_load_eq)

/-- Two refreshes of one cache. -/
structure Overlap where
  cache : Cache
  platform : Platform
  stage : Bool → Refreshing

namespace Overlap

/-- What happens next: one of the refreshes takes a step, or a definition is put or removed. -/
inductive Turn where
  | refresh (i : Bool)
  | put (id text : String)
  | remove (id : String)
  deriving DecidableEq

/-- The refreshes before they begin. -/
def start (c : Cache) (p : Platform) : Overlap := ⟨c, p, fun _ => .waiting⟩

/-- The platform with another store. -/
def stored (d : Overlap) (s : Store) : Overlap :=
  { d with platform := { d.platform with store := s } }

/-- Where one of the refreshes stands now, with what it made of the cache and of the platform. -/
def moved (d : Overlap) (i : Bool) (r : Refreshing × Cache × Platform) : Overlap :=
  ⟨r.2.1, r.2.2, Function.update d.stage i r.1⟩

/-- One of the refreshes takes its next step. -/
def advance (d : Overlap) (i : Bool) : Overlap :=
  d.moved i ((d.stage i).next d.cache d.platform)

/-- Something happens. -/
def step (d : Overlap) : Turn → Overlap
  | .refresh i => d.advance i
  | .put id text => d.stored (d.platform.store.putDefinition id text)
  | .remove id => d.stored (d.platform.store.removeDefinition id)

/-- What happens in the order of a schedule. -/
def run (d : Overlap) (schedule : List Turn) : Overlap := schedule.foldl step d

/-- The items that one of the refreshes fetches. -/
def itemsOf (i : Bool) (d : Overlap) : List Turn → List RawDefinition
  | [] => []
  | t :: schedule =>
    (if t = .refresh i then (d.stage i).fetched d.cache d.platform else []) ++
      (d.step t).itemsOf i schedule

/-- A refresh replaces the snapshot after the other one has. -/
def ReplacesLast (d : Overlap) (i : Bool) : Prop :=
  (d.stage !i).HasReplaced ∧ ¬ (d.stage i).HasReplaced

variable {d : Overlap} {i j : Bool} {t : Turn} {schedule : List Turn} {c : Cache} {p : Platform}

theorem run_append (before after : List Turn) :
    d.run (before ++ after) = (d.run before).run after := List.foldl_append

theorem run_concat (schedule : List Turn) (t : Turn) :
    d.run (schedule ++ [t]) = (d.run schedule).step t := run_append schedule [t]

theorem advance_stage_self (d : Overlap) (i : Bool) :
    (d.advance i).stage i = ((d.stage i).next d.cache d.platform).1 := Function.update_self ..

theorem advance_stage_of_ne (d : Overlap) (h : j ≠ i) : (d.advance i).stage j = d.stage j :=
  Function.update_of_ne h ..

/-- Only its own steps matter to where a refresh stands. -/
theorem step_stage (h : t ≠ .refresh i) : (d.step t).stage i = d.stage i := by
  cases t with
  | refresh j => exact advance_stage_of_ne d fun hij => h (hij ▸ rfl)
  | put id text => rfl
  | remove id => rfl

/-- A refresh has read the items that its steps fetch. -/
theorem hasRead_run {items : List RawDefinition} (h : (d.stage i).HasRead items)
    (schedule : List Turn) :
    ((d.run schedule).stage i).HasRead (items ++ d.itemsOf i schedule) := by
  induction schedule generalizing d items with
  | nil =>
    rw [itemsOf, List.append_nil]
    exact h
  | cons t schedule ih =>
    rw [itemsOf, ← List.append_assoc]
    refine ih (d := d.step t) ?_
    split_ifs with ht
    · subst ht
      rw [show d.step (.refresh i) = d.advance i from rfl, advance_stage_self]
      exact h.next d.cache d.platform
    · rw [step_stage ht, List.append_nil]
      exact h

/-! ### A refresh that is alone -/

/-- Some steps of one refresh alone lead from the one state to the other. -/
def Reaches (i : Bool) (d d' : Overlap) : Prop := ∃ n, d.run (List.replicate n (.refresh i)) = d'

theorem Reaches.trans {d₁ d₂ d₃ : Overlap} (h : Reaches i d₁ d₂) (k : Reaches i d₂ d₃) :
    Reaches i d₁ d₃ := by
  obtain ⟨m, rfl⟩ := h
  obtain ⟨n, rfl⟩ := k
  exact ⟨m + n, by rw [← List.replicate_append_replicate, run_append]⟩

theorem Reaches.advance (d : Overlap) (i : Bool) : Reaches i d (d.advance i) := ⟨1, rfl⟩

theorem Reaches.next (d : Overlap) (i : Bool) (r : Refreshing × Cache × Platform) :
    Reaches i (d.moved i r) (d.moved i (r.1.next r.2.1 r.2.2)) := by
  have h := Reaches.advance (d.moved i r) i
  rw [Overlap.advance, show (d.moved i r).stage i = r.1 from Function.update_self ..] at h
  refine h.trans ⟨0, ?_⟩
  exact congrArg (Overlap.mk _ _) (Function.update_idem ..)

theorem reaches_swept (d : Overlap) (i : Bool) : ∀ {fuel : Nat} {s : Sweep} {r : Refreshing}
    (_ : r.sweep? = some s) {p : Platform} (_ : s.Enough fuel p),
    Reaches i (d.moved i (r, c, p)) (d.moved i (swept c ((Sweep.within c.pageSize fuel s).run p)))
  | 0, _, _, _, _, h => absurd h.pos (lt_irrefl 0)
  | fuel + 1, s, r, hr, p, h => by
    have hnext := Reaches.next d i (r, c, p)
    rw [Refreshing.next_of_sweep? hr, Refreshing.fetch, Refreshing.answer] at hnext
    rw [Sweep.within, Run.run_bind]
    rcases hpage : (Run.fetchDefinitions s.offset c.pageSize).run p with ⟨e | page, q⟩ <;>
      rw [hpage] at hnext
    · exact hnext
    · dsimp only [Refreshing.turnPage] at hnext ⊢
      split_ifs at hnext ⊢ with hdone
      · exact hnext
      · exact hnext.trans (reaches_swept d i rfl (h.take hpage hdone))

/-- **A refresh that is alone does what a refresh does**, and returns what that loads. -/
theorem reaches_refreshed (h : d.stage i = .waiting) : Reaches i d (d.moved i
    (.returned ((Cache.load d.cache.pageSize).run d.platform).1,
      (d.cache.refresh.run d.platform).1.2, (d.cache.refresh.run d.platform).2)) := by
  have hd : d.moved i (.waiting, d.cache, d.platform) = d := by
    rw [moved, ← h, Function.update_eq_self]
  have hswept := reaches_swept (c := d.cache) d i (r := .waiting) rfl (Sweep.enough_start d.platform)
  rw [hd] at hswept
  rw [Cache.run_refresh_eq, run_load_eq]
  have hrun : (Sweep.run d.cache.pageSize).run d.platform =
    (Sweep.within d.cache.pageSize (Sweep.pagesLeft d.platform) .start).run d.platform := rfl
  rw [← hrun] at hswept
  rcases hs : (Sweep.run d.cache.pageSize).run d.platform with ⟨e | s, q⟩ <;> rw [hs] at hswept
  · exact hswept
  · exact hswept.trans (Reaches.next d i (swept d.cache (.ok s, q)))

/-! ### Who replaces the snapshot last -/

/-- The other refresh has replaced the snapshot, and if this one has since, its snapshot is there. -/
structure Trails (i : Bool) (d : Overlap) : Prop where
  other : (d.stage !i).HasReplaced
  own : ∀ s, d.stage i = .returned (.ok s) → d.cache.snapshot = s

theorem trails_of_replacesLast (h : d.ReplacesLast i) : d.Trails i :=
  ⟨h.1, fun s hs => absurd ⟨s, hs⟩ h.2⟩

/-- A refresh that has returned takes no more steps. -/
theorem advance_of_hasReplaced (h : (d.stage i).HasReplaced) : d.advance i = d := by
  obtain ⟨s, hs⟩ := h
  unfold advance
  rw [hs]
  show Overlap.mk d.cache d.platform (Function.update d.stage i (.returned (.ok s))) = d
  rw [← hs, Function.update_eq_self]

/-- The snapshot of a refresh is there after the step that replaces it. -/
theorem Trails.advance (h : d.Trails i) : (d.advance i).Trails i := by
  have hother : (d.advance i).stage (!i) = d.stage !i :=
    advance_stage_of_ne d (Bool.not_not_eq.mpr rfl)
  refine ⟨hother ▸ h.other, fun s hs => ?_⟩
  rw [advance_stage_self] at hs
  show ((d.stage i).next d.cache d.platform).2.1.snapshot = s
  rcases (d.stage i).next_cases d.cache d.platform with ⟨s', hs', hc⟩ | ⟨hc, hkept⟩
  · rw [hs'] at hs
    cases hs
    rw [hc]
  · rw [hc]
    exact h.own s ((hkept ⟨s, hs⟩).symm.trans hs)

theorem Trails.step (h : d.Trails i) (t : Turn) : (d.step t).Trails i := by
  cases t with
  | put id text => exact ⟨h.other, h.own⟩
  | remove id => exact ⟨h.other, h.own⟩
  | refresh j =>
    by_cases hj : j = i
    · subst hj
      exact h.advance
    · obtain rfl : j = !i := by cases i <;> cases j <;> simp_all
      rw [show d.step (.refresh !i) = d.advance (!i) from rfl, advance_of_hasReplaced h.other]
      exact h

theorem Trails.run (h : d.Trails i) (schedule : List Turn) : (d.run schedule).Trails i := by
  induction schedule generalizing d with
  | nil => exact h
  | cons t schedule ih => exact ih (h.step t)

/-- If both refreshes have replaced the snapshot, one of them was the last to do so. -/
theorem exists_replacesLast (hstart : ∀ i, ¬ (d.stage i).HasReplaced) (schedule : List Turn)
    (hend : ∀ i, ((d.run schedule).stage i).HasReplaced) :
    ∃ i before after, schedule = before ++ after ∧ (d.run before).ReplacesLast i := by
  induction schedule using List.reverseRecOn with
  | nil => exact absurd (hend true) (hstart true)
  | append_singleton schedule t ih =>
    by_cases hboth : ∀ i, ((d.run schedule).stage i).HasReplaced
    · obtain ⟨i, before, after, rfl, hlast⟩ := ih hboth
      exact ⟨i, before, after ++ [t], List.append_assoc .., hlast⟩
    · -- the last step is the one of the refresh that has not replaced the snapshot before
      obtain ⟨i, hi⟩ := not_forall.mp hboth
      have ht : t = .refresh i := by
        by_contra hne
        refine hi ?_
        rw [← step_stage hne, ← run_concat]
        exact hend i
      refine ⟨i, schedule, [t], rfl, ?_, hi⟩
      have hother : t ≠ .refresh !i := by simp [ht]
      rw [← step_stage hother, ← run_concat]
      exact hend !i

/-- **The snapshot that remains is the one of the refresh that replaces it last**, which is made of
the definitions that this refresh has read itself; there is such a refresh. -/
theorem snapshot_of_returned {s : Bool → Snapshot}
    (hend : ∀ i, ((start c p).run schedule).stage i = .returned (.ok (s i))) :
    (∀ i, s i = .ofDefinitions (readable ((start c p).itemsOf i schedule))) ∧
    (∃ i before after, schedule = before ++ after ∧ ((start c p).run before).ReplacesLast i) ∧
    ∀ i before after, schedule = before ++ after → ((start c p).run before).ReplacesLast i →
      ((start c p).run schedule).cache.snapshot = s i := by
  have hstart : ∀ i, ¬ ((start c p).stage i).HasReplaced := by
    rintro i ⟨t, ht⟩
    cases ht
  refine ⟨fun i => ?_, exists_replacesLast hstart schedule fun i => ⟨s i, hend i⟩, ?_⟩
  · have hwaiting : ((start c p).stage i).HasRead [] := rfl
    have hread := hasRead_run hwaiting schedule
    rw [hend i] at hread
    exact hread
  · rintro i before after rfl hlast
    rw [run_append] at hend ⊢
    exact ((trails_of_replacesLast hlast).run after).own (s i) (hend i)

/-! ### Going back -/

/-- Nothing is out, and a page has room for all definitions of the store. -/
structure Roomy (d : Overlap) : Prop where
  up : d.platform.outages = []
  source : d.platform.definitions = .store
  room : d.platform.store.definitions.length ≤ d.cache.pageSize

/-- The snapshot of the definitions in a store. -/
def snapshotOf (s : Store) : Snapshot :=
  .ofDefinitions (readable (s.definitions.map fun (id, text) => ⟨id, text⟩))

/-- A sweep with room for all definitions ends with its first page. -/
theorem Roomy.advance (h : d.Roomy) (hi : d.stage i = .waiting) :
    (d.advance i).stage i = .replacing (snapshotOf d.platform.store) ∧
      (d.advance i).cache = d.cache ∧ d.platform.Alike (d.advance i).platform := by
  have hanswer : Refreshing.answer .start d.cache d.platform =
      (.ok (d.platform.store.definitionPage 0 d.cache.pageSize),
        { d.platform with calls := d.platform.calls ++ [.fetchDefinitions 0 d.cache.pageSize] }) := by
    have hup : d.platform.outage? (.fetchDefinitions 0 d.cache.pageSize) = none := by
      simp [Platform.outage?, Outages.message?, h.up]
    show (Run.fetchDefinitions 0 d.cache.pageSize).run d.platform = _
    unfold Run.fetchDefinitions
    rw [Run.run_bind, Run.run_call, hup]
    dsimp only
    rw [Run.run_get_bind]
    dsimp only
    rw [h.source]
    rfl
  have hitems : (d.platform.store.definitionPage 0 d.cache.pageSize).items =
      d.platform.store.definitions.map fun (id, text) => ⟨id, text⟩ := by
    rw [Store.definitionPage, List.drop_zero, List.take_of_length_le h.room]
  have hdone : (Sweep.start.take (d.platform.store.definitionPage 0 d.cache.pageSize)).isDone
      (d.platform.store.definitionPage 0 d.cache.pageSize) = true := by
    rw [Sweep.isDone, Sweep.take_offset, hitems, List.length_map, Bool.or_eq_true]
    exact .inr (decide_eq_true (by simp [Store.definitionPage, Sweep.start]))
  rw [Overlap.advance, hi, Refreshing.next, Refreshing.fetch, hanswer, Refreshing.turnPage,
    if_pos hdone]
  refine ⟨(Function.update_self i _ d.stage).trans ?_, rfl, rfl, rfl, rfl, rfl, rfl, rfl⟩
  rw [snapshotOf, ← hitems]
  rfl

/-- One refresh fetches its page, a definition is put, and then the other one fetches its page. -/
def overtaking (id text : String) : List Turn := [.refresh true, .put id text, .refresh false]

/-- Both refreshes are about to replace the snapshot, each by the one that it has read. -/
theorem Roomy.overtaking (h : d.Roomy) (hd : ∀ i, d.stage i = .waiting) {id text : String}
    (hput : (d.platform.store.putDefinition id text).definitions.length ≤ d.cache.pageSize) :
    (d.run (overtaking id text)).stage true = .replacing (snapshotOf d.platform.store) ∧
      (d.run (overtaking id text)).stage false =
        .replacing (snapshotOf (d.platform.store.putDefinition id text)) := by
  obtain ⟨hfirst, hcache, halike⟩ := h.advance (hd true)
  let d' := (d.advance true).step (.put id text)
  have hstore : d'.platform.store = d.platform.store.putDefinition id text :=
    congrArg (·.putDefinition id text) halike.store
  have hroomy : d'.Roomy := by
    refine ⟨halike.outages.trans h.up, halike.definitions.trans h.source, ?_⟩
    rw [hstore, show d'.cache = d.cache from hcache]
    exact hput
  have hwaiting : d'.stage false = .waiting :=
    (advance_stage_of_ne d Bool.false_ne_true).trans (hd false)
  obtain ⟨hsecond, -, -⟩ := hroomy.advance hwaiting
  rw [hstore] at hsecond
  exact ⟨(advance_stage_of_ne d' Bool.false_ne_true.symm).trans hfirst, hsecond⟩

/-- The last step of a refresh replaces the snapshot. -/
theorem advance_replacing {s : Snapshot} (hi : d.stage i = .replacing s) :
    (d.advance i).stage i = .returned (.ok s) ∧ (d.advance i).cache.snapshot = s := by
  rw [advance, hi]
  exact ⟨Function.update_self i _ d.stage, rfl⟩

/-- The refreshes replace the snapshot one after the other. -/
theorem run_both {s : Bool → Snapshot} (hs : ∀ j, d.stage j = .replacing (s j)) (i : Bool) :
    (d.run [.refresh !i]).stage (!i) = .returned (.ok (s !i)) ∧
      (d.run [.refresh !i]).stage i = .replacing (s i) ∧
      (d.run [.refresh !i]).cache.snapshot = s !i ∧
      (∀ j, (d.run [.refresh !i, .refresh i]).stage j = .returned (.ok (s j))) ∧
      (d.run [.refresh !i, .refresh i]).cache.snapshot = s i := by
  have hne : i ≠ !i := by simp
  obtain ⟨hfirst, hsnapshot⟩ := advance_replacing (hs !i)
  have hwaits : (d.advance !i).stage i = .replacing (s i) :=
    (advance_stage_of_ne d hne).trans (hs i)
  obtain ⟨hsecond, hsnapshot'⟩ := advance_replacing hwaits
  refine ⟨hfirst, hwaits, hsnapshot, fun j => ?_, hsnapshot'⟩
  by_cases hj : j = i
  · rw [hj]
    exact hsecond
  · obtain rfl : j = !i := by cases i <;> cases j <;> simp_all
    exact (advance_stage_of_ne (d.advance !i) hne.symm).trans hfirst

/-- A definition about things. -/
def text : String := "\x7b\"on\": \x7b\"types\": [\"thing\"]\x7d, \"rules\":
  \x7b\"property\": \"urn\", \"operator\": \"exists\"\x7d\x7d"

/-- A store with one definition. -/
def ofFirst : Platform := .ofStore (Store.empty.putDefinition "first" text) [] 0

/-- The snapshots that are read before and after a second definition is put. -/
def reading (i : Bool) : Snapshot :=
  snapshotOf (if i then ofFirst.store else ofFirst.store.putDefinition "second" text)

theorem replacing_reading (i : Bool) : ((start (.ofPageSize 30) ofFirst).run
    (overtaking "second" text)).stage i = .replacing (reading i) := by
  have hroomy : (start (.ofPageSize 30) ofFirst).Roomy := ⟨rfl, rfl, by decide⟩
  have hput : (ofFirst.store.putDefinition "second" text).definitions.length ≤ 30 := by decide
  obtain ⟨hfirst, hsecond⟩ := hroomy.overtaking (fun _ => rfl) hput
  cases i
  · exact hsecond
  · exact hfirst

/-- The refresh that read both definitions replaces the snapshot last. -/
theorem remains_last : ∃ schedule,
    (∀ i, ((start (.ofPageSize 30) ofFirst).run schedule).stage i = .returned (.ok (reading i))) ∧
    ((start (.ofPageSize 30) ofFirst).run schedule).cache.snapshot = reading false ∧
    (reading false).byId.map (·.1) = ["first", "second"] := by
  let before : List Turn := overtaking "second" text ++ [.refresh true]
  obtain ⟨hfirst, hsecond, -, hend, -⟩ := run_both replacing_reading false
  simp only [← run_append, Bool.not_false] at hfirst hsecond hend
  have hlast : ((start (.ofPageSize 30) ofFirst).run before).ReplacesLast false := by
    refine ⟨⟨_, hfirst⟩, fun ⟨s, hs⟩ => ?_⟩
    rw [hs] at hsecond
    cases hsecond
  refine ⟨before ++ [.refresh false], by simpa [before] using hend, ?_, by decide +kernel⟩
  exact (snapshot_of_returned (by simpa [before] using hend)).2.2 false before _ rfl hlast

/-- **The cache may go back**: the first refresh has fetched its page when the second one begins, the
second one returns with a snapshot of both definitions, and then the first one replaces it by a
snapshot without the second definition. -/
theorem goes_back :
    let d := start (.ofPageSize 30) ofFirst
    let before : List Turn := overtaking "second" text ++ [.refresh false]
    (d.run [.refresh true]).stage true ≠ .waiting ∧ (d.run [.refresh true]).stage false = .waiting ∧
      (d.run before).stage false = .returned (.ok (reading false)) ∧
      (d.run before).cache.snapshot = reading false ∧
      (∀ i, (d.run (before ++ [.refresh true])).stage i = .returned (.ok (reading i))) ∧
      (d.run (before ++ [.refresh true])).cache.snapshot = reading true ∧
      (reading false).byId.map (·.1) = ["first", "second"] ∧
      (reading true).byId.map (·.1) = ["first"] := by
  intro d before
  obtain ⟨hfirst, -, hsnapshot, hend, hsnapshot'⟩ := run_both replacing_reading true
  simp only [← run_append, Bool.not_true] at hfirst hsnapshot hend hsnapshot'
  have hbegun : (d.run [.refresh true]).stage true = .replacing (reading true) := by
    have hkept : (d.run (overtaking "second" text)).stage true =
        (d.run [.refresh true]).stage true :=
      (step_stage (t := .refresh false) (by simp)).trans
        (step_stage (t := .put "second" text) (by simp))
    rw [← hkept]
    exact replacing_reading true
  refine ⟨by rw [hbegun]; simp, rfl, hfirst, hsnapshot, by simpa [before] using hend,
    by simpa [before] using hsnapshot', by decide +kernel, by decide +kernel⟩

end Overlap
end CatalogRules

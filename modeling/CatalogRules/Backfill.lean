import CatalogRules.Engine

/-! # Backfill

A backfill evaluates all entities of the types that there are definitions about. For each type the
names of the entities are scrolled through; every page is a batch that is evaluated by itself. Pages
are read ahead, up to the number of batches that may be in progress, and batches are evaluated in
the order of the pages. A page that cannot be read counts as a failed batch and ends its type; a
batch that fails does not stop the others. -/

namespace CatalogRules

/-- What a backfill did. -/
structure BackfillReport where
  entityTypes : List String
  batches : Nat
  entities : Nat
  failedBatches : Nat
  deriving DecidableEq, Repr

/-- The sizes that govern a backfill; both are one at least. -/
structure BackfillLimits where
  batchSize : Nat
  concurrency : Nat
  deriving DecidableEq, Repr

/-- The limits in the settings. -/
def EngineSettings.backfillLimits (s : EngineSettings) : BackfillLimits :=
  ⟨max s.backfillBatchSize 1, max s.backfillConcurrency 1⟩

namespace Backfill

/-- The names on a page, or the failure to read it. -/
abbrev Batch := Except Failure (List Urn)

/-- The scrolling through a type: the cursor of the next page, where `none` is the end, and the
batches that wait for their evaluation. -/
structure Scroll where
  next : Option (Option String)
  waiting : List Batch

namespace Scroll

/-- The beginning of a type. -/
def start : Scroll := ⟨some none, []⟩

/-- Reads the next page. An empty page is the end. -/
def readPage (entityType : String) (size : Nat) (s : Scroll) : StateM Platform Scroll := do
  match s.next with
  | none => return s
  | some cursor =>
    match ← (Run.scroll entityType size cursor).run with
    | .error e => return ⟨none, s.waiting ++ [.error e]⟩
    | .ok page =>
      if page.urns.isEmpty then return ⟨none, s.waiting⟩
      else return ⟨page.next.map some, s.waiting ++ [.ok page.urns]⟩

/-- Reads up to a number of pages ahead. -/
def readAhead (entityType : String) (size : Nat) : Nat → Scroll → StateM Platform Scroll
  | 0, s => return s
  | room + 1, s => do
    if s.next.isNone then return s
    else readAhead entityType size room (← s.readPage entityType size)

end Scroll

/-- Evaluates a batch; the answer is the number of its entities. -/
def evaluateBatch (e : Engine) (mode : Mode) (b : Batch) : Run Nat := do
  match b with
  | .error f => throw f
  | .ok us => do
    let us := Sorted.ofList us
    let _ ← e.evaluate .all mode us
    return us.length

/-- Counts a batch. -/
def tally (report : BackfillReport) : Except Failure Nat → BackfillReport
  | .ok n => { report with batches := report.batches + 1, entities := report.entities + n }
  | .error _ =>
    { report with batches := report.batches + 1, failedBatches := report.failedBatches + 1 }

/-- Evaluates the batches of a type from some point on, with a bound on their number. -/
def drain (e : Engine) (mode : Mode) (limits : BackfillLimits) (entityType : String) :
    Nat → Scroll → BackfillReport → StateM Platform BackfillReport
  | 0, _, report => return report
  | fuel + 1, s, report => do
    let s ← s.readAhead entityType limits.batchSize (limits.concurrency - s.waiting.length)
    match s.waiting with
    | [] => return report
    | b :: rest => do
      let answer ← (evaluateBatch e mode b).run
      drain e mode limits entityType fuel ⟨s.next, rest⟩ (tally report answer)

/-- A bound on the number of the pages of a type. -/
def pagesLeft (p : Platform) (entityType : String) : Nat :=
  match p.searches.lookup entityType with
  | some pages => pages.length + 2
  | none => (p.store.urns entityType).length + 2

/-- The backfill of a type. -/
def scanType (e : Engine) (mode : Mode) (limits : BackfillLimits) (report : BackfillReport)
    (entityType : String) : StateM Platform BackfillReport := do
  drain e mode limits entityType (pagesLeft (← get) entityType) .start report

end Backfill

/-- Evaluates all entities of the types that there are definitions about. -/
def Engine.backfill (e : Engine) (mode : Mode) (limits : BackfillLimits) :
    StateM Platform BackfillReport :=
  e.entityTypes.foldlM (Backfill.scanType e mode limits) ⟨e.entityTypes, 0, 0, 0⟩

end CatalogRules

import CatalogRules.Failure
import CatalogRules.Pattern.Reader
import CatalogRules.Platform.Basic
import CatalogRules.Snapshot

/-! # Sweeps

A sweep reads all definitions page by page. It ends with a page that is empty or that brings the
number of items read so far to the total that the page states. Definitions that cannot be read are
left out. -/

namespace CatalogRules

/-- What a sweep has read so far: the number of items, and the definitions among them. -/
structure Sweep where
  offset : Nat
  found : List Definition

namespace Sweep

/-- The beginning of a sweep. -/
def start : Sweep := ⟨0, []⟩

/-- The definitions that some items describe. -/
def readable (items : List RawDefinition) : List Definition :=
  items.filterMap fun raw => (Definition.read raw.id raw.text).toOption

/-- Takes a page in. -/
def take (s : Sweep) (page : DefinitionPage) : Sweep :=
  ⟨s.offset + page.items.length, s.found ++ readable page.items⟩

/-- The sweep ends with a page, given what was read with it. -/
def isDone (s : Sweep) (page : DefinitionPage) : Bool :=
  page.items.isEmpty || page.total ≤ s.offset

/-- The sweep from some point on, with a bound on the number of pages. -/
def within (pageSize : Nat) : Nat → Sweep → Run Sweep
  | 0, s => return s
  | fuel + 1, s => do
    let page ← Run.fetchDefinitions s.offset pageSize
    let s := s.take page
    if s.isDone page then return s else within pageSize fuel s

/-- A bound on the number of pages that are read: there is at least one item on every page of the
store before the end, and a script serves empty pages when it is used up. -/
def pagesLeft (p : Platform) : Nat :=
  match p.definitions with
  | .store => p.store.definitions.length + 1
  | .script pages => pages.length + 1

/-- A whole sweep. -/
def run (pageSize : Nat) : Run Sweep := do
  within pageSize (pagesLeft (← get)) start

theorem take_offset (s : Sweep) (page : DefinitionPage) :
    (s.take page).offset = s.offset + page.items.length := rfl

end Sweep
end CatalogRules

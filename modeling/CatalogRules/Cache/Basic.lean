import CatalogRules.Cache.Sweep

/-! # The cache of definitions

The cache holds the snapshot of the last sweep that succeeded. A sweep that fails leaves it as it
was. -/

namespace CatalogRules

/-- The cache: the number of definitions that are asked for at once, and the snapshot. -/
structure Cache where
  pageSize : Nat
  snapshot : Snapshot

namespace Cache

/-- A cache without definitions. -/
def ofPageSize (pageSize : Nat) : Cache := ⟨max pageSize 1, .empty⟩

/-- The snapshot of all definitions; either outcome is counted. -/
def load (pageSize : Nat) : Run Snapshot := do
  let sweep ← try Sweep.run pageSize
    catch e => do
      Run.count (.cacheRefreshes false)
      throw e
  let s := Snapshot.ofDefinitions sweep.found
  Run.count (.cacheRefreshes true)
  Run.gauge .cachedDefinitions s.size
  return s

/-- Replaces the snapshot; the answer is the number of definitions. -/
def refresh (c : Cache) : StateM Platform (Except Failure Nat × Cache) := do
  match ← (load c.pageSize).run with
  | .ok s => return (.ok s.size, { c with snapshot := s })
  | .error e => return (.error e, c)

end Cache
end CatalogRules

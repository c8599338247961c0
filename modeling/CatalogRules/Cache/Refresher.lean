import CatalogRules.Cache.Basic

/-! # The refresher

The refresher keeps a cache up to date. It refreshes when it is started and then at a fixed
interval; an invalidation refreshes at once and begins a new interval. It goes on after a refresh
that fails. Its own clock counts milliseconds; a refresh takes no time. -/

namespace CatalogRules

/-- When to refresh: the interval, and the time of the next refresh. -/
structure Schedule where
  interval : Nat
  due : Nat
  deriving DecidableEq, Repr

/-- A cache with a clock and, unless it was shut down, a schedule. -/
structure Refresher where
  cache : Cache
  clock : Nat
  schedule : Option Schedule

namespace Refresher

/-- The time that is given to a step for its effects. -/
def settling : Nat := 10

/-- The interval for a number of seconds: one second at least. -/
def intervalOf (seconds : Nat) : Nat := 1000 * max seconds 1

/-- Refreshes the cache now. -/
def refresh (r : Refresher) : StateM Platform (Except Failure Nat × Refresher) := do
  let (answer, cache) ← r.cache.refresh
  return (answer, { r with cache })

/-- Performs the refreshes that are due up to a time, with a bound on their number. -/
def waitWithin (stop : Nat) : Nat → Refresher → StateM Platform Refresher
  | 0, r => return { r with clock := stop }
  | fuel + 1, r =>
    match r.schedule with
    | none => return { r with clock := stop }
    | some s =>
      if s.due ≤ stop then do
        let (_, r) ← r.refresh
        let next : Schedule := ⟨s.interval, s.due + s.interval⟩
        waitWithin stop fuel { r with clock := s.due, schedule := some next }
      else return { r with clock := stop }

/-- Lets some time pass. -/
def wait (r : Refresher) (ms : Nat) : StateM Platform Refresher :=
  let stop := r.clock + ms
  let fuel := match r.schedule with
    | some s => (stop - s.due) / s.interval + 1
    | none => 0
  waitWithin stop fuel r

/-- A refresher that has been started. -/
def start (pageSize seconds : Nat) : StateM Platform Refresher := do
  let interval := intervalOf seconds
  let (_, r) ← refresh ⟨.ofPageSize pageSize, 0, some ⟨interval, interval⟩⟩
  r.wait settling

/-- Refreshes at once and begins a new interval, unless the refresher was shut down. -/
def invalidate (r : Refresher) : StateM Platform Refresher := do
  match r.schedule with
  | none => r.wait settling
  | some s => do
    let (_, r) ← r.refresh
    wait { r with schedule := some ⟨s.interval, r.clock + s.interval⟩ } settling

/-- Stops refreshing. -/
def shutdown (r : Refresher) : Refresher := { r with schedule := none }

end Refresher
end CatalogRules

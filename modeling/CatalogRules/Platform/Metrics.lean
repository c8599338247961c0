import CatalogRules.Action.Basic
import CatalogRules.Keyed

/-! # Metrics

Counters, a gauge and a histogram, each with its labels. Of a histogram only the number of its
records is kept. -/

namespace CatalogRules

/-- What is measured. -/
inductive Meter where
  | evaluations (entityType : String) (passed : Bool)
  | evaluationDuration (entityType : String)
  | cacheRefreshes (succeeded : Bool)
  | cachedDefinitions
  | aspectFetches (entityType evaluator : String)
  | actions (kind : ActionKind) (succeeded : Bool)
  deriving DecidableEq, Repr

namespace Meter

/-- The name under which a meter is reported. -/
def name : Meter → String
  | .evaluations _ _ => "metadata_test_evaluations_total"
  | .evaluationDuration _ => "metadata_test_evaluation_duration_seconds"
  | .cacheRefreshes _ => "metadata_test_cache_refresh_total"
  | .cachedDefinitions => "metadata_test_cached_definitions"
  | .aspectFetches _ _ => "metadata_test_aspect_fetches_total"
  | .actions _ _ => "metadata_test_actions_total"

/-- The word for success or failure. -/
def status (succeeded : Bool) : String := if succeeded then "success" else "failure"

/-- The labels of a meter, in order of their names. -/
def labels : Meter → List (String × String)
  | .evaluations entityType passed =>
    [("entity_type", entityType), ("verdict", status passed)]
  | .evaluationDuration entityType => [("entity_type", entityType)]
  | .cacheRefreshes succeeded => [("status", status succeeded)]
  | .cachedDefinitions => []
  | .aspectFetches entityType evaluator =>
    [("entity_type", entityType), ("evaluator", evaluator)]
  | .actions kind succeeded => [("kind", kind.name), ("status", status succeeded)]

/-- The written labels. -/
def labelTexts (m : Meter) : List String := m.labels.map fun (k, v) => k ++ "=" ++ v

end Meter

/-- The readings of the meters that were used. -/
abbrev Metrics := List (Meter × Nat)

namespace Metrics

/-- The reading of a meter. -/
def reading (ms : Metrics) (m : Meter) : Nat := (ms.lookup m).getD 0

/-- Increases a counter. -/
def increment (ms : Metrics) (m : Meter) : Metrics := Keyed.put m (ms.reading m + 1) ms

/-- Sets a gauge. -/
def set (ms : Metrics) (m : Meter) (n : Nat) : Metrics := Keyed.put m n ms

/-- The readings in order of names and then of labels. -/
def report (ms : Metrics) : List (String × List String × Nat) :=
  let rows := Sorted.ofPairs (ms.map fun (m, n) => (m.name :: m.labelTexts, n))
  rows.filterMap fun (key, n) => match key with
    | name :: labels => some (name, labels, n)
    | [] => none

end Metrics
end CatalogRules

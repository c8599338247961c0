import CatalogRules.Pattern.Reader
import CatalogRules.Predicate.Eval
import CatalogRules.Resolution.Resolve
import CatalogRules.Snapshot

/-! # Evaluation

The definitions about the type of an entity are its candidates. A candidate is applicable if its
condition, should it have one, is true for the entity; each applicable definition gives one outcome,
by its rules. The paths of all conditions are resolved together, and so are the paths of all rules.
-/

namespace CatalogRules

/-- Which definitions are evaluated. -/
inductive Selection where
  | all
  | only (ids : List String)
  deriving DecidableEq, Repr

/-- A definition is selected. -/
def Selection.includes (sel : Selection) (d : Definition) : Bool :=
  match sel with
  | .all => true
  | .only ids => ids.contains d.id

/-- The definitions that are taken for each entity. -/
abbrev Assignment := List (Urn × List Definition)

/-- The results of each entity. -/
abbrev Evaluation := List (Urn × Results)

namespace Evaluation

/-- The definitions about the type of each entity. -/
def candidates (s : Snapshot) (sel : Selection) (us : List Urn) : Assignment :=
  us.map fun u => (u, (s.forType u.entityType).filter sel.includes)

/-- The truth value of a predicate for an entity, given the values of its paths. -/
def truth (res : Resolution) (u : Urn) (p : Predicate) : Run Bool :=
  match p.eval fun path => res.values u (Path.ofText path) with
  | .ok b => return b
  | .error fault => throw (.invalidOperand fault)

/-- The values of all paths of some predicates on the entities that they are to be evaluated for. -/
def valuesFor (r : Registry) (wanted : List (Urn × List Predicate)) : Run Resolution :=
  let us := (wanted.filter fun w => !w.2.isEmpty).map (·.1)
  let paths := Sorted.ofList (wanted.flatMap fun w => w.2.flatMap Predicate.paths)
  resolve Evaluator.standard r us (paths.map Path.ofText)

/-- A definition is applicable to an entity. -/
def isApplicable (res : Resolution) (u : Urn) (d : Definition) : Run Bool :=
  match d.conditions with
  | none => return true
  | some p => truth res u p

/-- The candidates that are applicable. -/
def applicable (r : Registry) (cands : Assignment) : Run Assignment := do
  let res ← valuesFor r (cands.map fun (u, ds) => (u, ds.filterMap (·.conditions)))
  cands.mapM fun (u, ds) => do
    return (u, ← ds.filterM fun d => isApplicable res u d)

/-- Evaluates a definition for an entity and appends the outcome. -/
def record (res : Resolution) (u : Urn) (results : Results) (d : Definition) : Run Results := do
  let passed ← truth res u d.rules
  Run.count (.evaluations u.entityType passed)
  return results.record d.id passed

/-- The outcomes of the given definitions. -/
def outcomes (r : Registry) (assigned : Assignment) : Run Evaluation := do
  let res ← valuesFor r (assigned.map fun (u, ds) => (u, ds.map (·.rules)))
  assigned.mapM fun (u, ds) => do
    return (u, ← ds.foldlM (record res u) .empty)

/-- The results of some entities, given as a sorted set, for the definitions of a snapshot. -/
def evaluate (r : Registry) (s : Snapshot) (sel : Selection) (us : List Urn) : Run Evaluation := do
  let rs ← outcomes r (← applicable r (candidates s sel us))
  (Sorted.ofList (us.map (·.entityType))).forM fun t => Run.count (.evaluationDuration t)
  return rs

end Evaluation
end CatalogRules

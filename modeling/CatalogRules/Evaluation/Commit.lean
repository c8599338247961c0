import CatalogRules.Evaluation.Basic

/-! # Committing an evaluation

In full mode the results of an evaluation are stored and the actions of the definitions are applied.
An evaluation of all definitions replaces the stored results; an evaluation of some of them keeps
the stored outcomes of the others. An action is applied once to all entities that have an outcome
for which it is listed; an action that fails does not stop the others. -/

namespace CatalogRules

/-- Whether an evaluation is committed. -/
inductive Mode where
  | evaluateOnly
  | full
  deriving DecidableEq, Repr

namespace Evaluation

/-! ### Storing -/

/-- The results in fetched aspects; what cannot be read counts as none. -/
def storedResults (fetched : List (Urn × Aspects)) : Evaluation :=
  fetched.filterMap fun (u, aspects) => do
    let e ← aspects.lookup Store.resultsAspect
    some (u, ← Results.ofValue? e.value)

/-- The stored results of some entities, looked up by entity type. -/
def prior (us : List Urn) : Run Evaluation :=
  (Sorted.ofList (us.map (·.entityType))).foldlM (fun found t => do
    let fetched ← Run.fetchAspects t (us.filter (·.entityType = t)) [Store.resultsAspect]
    return found ++ storedResults fetched) []

/-- The results to be stored, given the stored ones. -/
def mergeAll (rs stored : Evaluation) (evaluated : List String) : Evaluation :=
  rs.map fun (u, r) => (u, r.mergePrior ((stored.lookup u).getD .empty) evaluated)

/-- The results to be stored. -/
def merged (s : Snapshot) (sel : Selection) (rs : Evaluation) : Run Evaluation := do
  match sel with
  | .all => return rs
  | .only ids => do
    let stored ← prior (rs.map (·.1))
    return mergeAll rs stored (ids.filter s.has)

/-- Stores results one by one, up to the first failure. -/
def persist (rs : Evaluation) : Run Unit := rs.forM fun (u, r) => Run.persistResult u r

/-! ### Actions -/

/-- The actions that are listed for an outcome. -/
def actionsFor (s : Snapshot) (o : Outcome) : List Action :=
  match s.get? o.test with
  | some d => d.actions.of o.verdict
  | none => []

/-- The actions to be applied, in order, with the entities that they are applied to. -/
def dispatch (s : Snapshot) (rs : Evaluation) : List (Action × List Urn) :=
  let pairs := rs.flatMap fun (u, r) => (r.outcomes.flatMap (actionsFor s)).map fun a => (a, u)
  pairs.foldl (fun m (a, u) => Sorted.alter a (fun us => Sorted.insert u (us.getD [])) m) []

/-- Applies an action; a failure is only counted. -/
def attempt (a : Action) (us : List Urn) : Run Unit := do
  let succeeded ← try
      Run.applyAction a us
      pure true
    catch _ => pure false
  Run.count (.actions a.kind succeeded)

/-- Applies actions one by one. -/
def applyAll (todo : List (Action × List Urn)) : Run Unit := todo.forM fun (a, us) => attempt a us

/-! ### The whole -/

/-- Stores the results and applies the actions. -/
def commit (s : Snapshot) (sel : Selection) (rs : Evaluation) : Run Unit := do
  persist (← merged s sel rs)
  applyAll (dispatch s rs)

/-- Evaluates the selected definitions for some entities and, in full mode, commits the results. -/
def run (r : Registry) (s : Snapshot) (sel : Selection) (mode : Mode) (us : List Urn) :
    Run Evaluation := do
  let rs ← evaluate r s sel (Sorted.ofList us)
  match mode with
  | .evaluateOnly => return rs
  | .full => do
    commit s sel rs
    return rs

end Evaluation
end CatalogRules

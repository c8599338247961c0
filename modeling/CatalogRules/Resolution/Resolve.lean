import CatalogRules.Platform.Basic
import CatalogRules.Resolution.Plan

/-! # Resolving paths

A request asks for the values of some paths on some entities of one type. Each path is resolved by
the first evaluator that can do so, all paths of an evaluator by one look into the store. Paths that
hop are pooled: the targets of all entities make up new requests, by their types, and the values
found there are handed back to the entities that the hop began at. A target that is not in the store
has no values, not even its own name. -/

namespace CatalogRules

/-- The values found for each entity and path. -/
abbrev Resolution := List (Urn × List (Path × List String))

/-- The entities and paths that are asked for on one entity type. -/
structure Request where
  urns : List Urn
  paths : List Path
  deriving DecidableEq

/-- The requests of each entity type, in order of the types. -/
abbrev Requests := List (String × Request)

namespace Resolution

/-- The values of a path on an entity. -/
def values (res : Resolution) (u : Urn) (p : Path) : List String :=
  (((res.lookup u).getD []).lookup p).getD []

/-- Sets the values of a path on an entity. -/
def put (res : Resolution) (u : Urn) (p : Path) (vs : List String) : Resolution :=
  Sorted.alter u (fun old => Sorted.put p vs (old.getD [])) res

/-- Appends values of a path on an entity; no values leave no trace. -/
def append (res : Resolution) (u : Urn) (p : Path) (vs : List String) : Resolution :=
  if vs = [] then res else res.put u p (res.values u p ++ vs)

/-- Appends all values of another resolution. -/
def merge (res other : Resolution) : Resolution :=
  other.foldl (fun res (u, entries) => entries.foldl (fun res (p, vs) => res.append u p vs) res) res

end Resolution

namespace Requests

/-- Adds entities and paths of a type. -/
def add (rs : Requests) (entityType : String) (us : List Urn) (ps : List Path) : Requests :=
  Sorted.alter entityType (fun old =>
    let old := old.getD ⟨[], []⟩
    ⟨us.foldl (fun s u => Sorted.insert u s) old.urns,
      ps.foldl (fun s p => Sorted.insert p s) old.paths⟩) rs

/-- The requests for some paths on some entities. -/
def ofUrns (us : List Urn) (ps : List Path) : Requests :=
  us.foldl (fun rs u => rs.add u.entityType [u] ps) []

/-- The greatest length of a path. -/
def longest (rs : Requests) : Nat :=
  rs.foldl (fun n r => r.2.paths.foldl (fun n p => max n p.length) n) 0

end Requests

/-- A hop that waits for the values on its targets. -/
structure Hop where
  source : Urn
  path : Path
  rest : Path
  targets : List Urn

namespace Resolve

/-- The values that the identity evaluator knows. -/
def identity (us : List Urn) (ps : List Path) : Resolution :=
  us.map fun u => (u, ps.filterMap fun p =>
    (IdentityField.ofPath? p).map fun f => (p, [f.value u]))

/-- The times that the system evaluator derives. -/
def system (r : Registry) (entityType : String) (us : List Urn) (ps : List Path) :
    Run Resolution := do
  let fields := ps.filterMap fun p => (SystemField.ofPath? p).map fun f => (p, f)
  if fields = [] then return []
  Run.count (.aspectFetches entityType Evaluator.system.name)
  let fetched ← Run.fetchAspects entityType us (r.aspectNames entityType)
  return fetched.map fun (u, aspects) =>
    (u, fields.filterMap fun (p, f) => (f.derive aspects).map fun t => (p, [toString t]))

/-- The texts that a plan finds in the aspects of an entity. -/
def found (aspects : Aspects) (plan : Plan) : List String :=
  match aspects.lookup plan.aspect with
  | some e => Path.values e.value plan.fields
  | none => []

/-- The values found without a hop. -/
def localValues (fetched : List (Urn × Aspects)) (plans : List (Path × Plan)) : Resolution :=
  fetched.foldl (fun res (u, aspects) =>
    plans.foldl (fun res (p, plan) => match plan with
      | .local _ _ => res.append u p (found aspects plan)
      | .hop _ _ _ _ => res) res) []

/-- The hops that have targets. -/
def hops (fetched : List (Urn × Aspects)) (plans : List (Path × Plan)) : List Hop :=
  fetched.flatMap fun (u, aspects) => plans.filterMap fun (p, plan) => match plan with
    | .local _ _ => none
    | .hop _ _ _ rest =>
      let targets := (found aspects plan).filterMap Urn.ofText?
      if targets = [] then none else some ⟨u, p, rest, targets⟩

/-- The requests for the targets of hops. -/
def hopRequests (hs : List Hop) : Requests :=
  hs.foldl (fun rs h => h.targets.foldl (fun rs t => rs.add t.entityType [t] [h.rest]) rs) []

/-- Some path of a request is resolved without a look into the store. -/
def hasStoreless (evs : List Evaluator) (r : Registry) (entityType : String) (q : Request) : Bool :=
  q.paths.any fun p => match Evaluator.firstEligible r entityType p evs with
    | some e => !e.readsStore
    | none => false

/-- Removes the targets that are not in the store from the requests that would not notice; the
removed targets are returned as well. -/
def dropMissing (evs : List Evaluator) (r : Registry) : Requests → Run (Requests × List Urn)
  | [] => return ([], [])
  | (entityType, q) :: rest => do
    if hasStoreless evs r entityType q then
      Run.count (.aspectFetches entityType Evaluator.aspect.name)
      let existing ← Run.fetchAspects entityType q.urns (r.keyAspect? entityType).toList
      let known (u : Urn) : Bool := (existing.lookup u).isSome
      let (requests, missing) ← dropMissing evs r rest
      return ((entityType, { q with urns := q.urns.filter known }) :: requests,
        q.urns.filter (fun u => !known u) ++ missing)
    else
      let (requests, missing) ← dropMissing evs r rest
      return ((entityType, q) :: requests, missing)

/-- The values that the hops find on their targets. -/
def hopValues (hs : List Hop) (missing : List Urn) (nested : Resolution) : Resolution :=
  hs.foldl (fun res h =>
    let targets := h.targets.filter fun t => ¬ missing.contains t
    res.append h.source h.path (targets.flatMap fun t => nested.values t h.rest)) []

/-- The values that the aspect evaluator finds; hops are resolved by `nested`. -/
def aspect (evs : List Evaluator) (r : Registry) (nested : Requests → Run Resolution)
    (entityType : String) (us : List Urn) (ps : List Path) : Run Resolution := do
  let plans := ps.filterMap fun p => (Plan.of? r entityType p).map fun plan => (p, plan)
  if plans = [] then return []
  Run.count (.aspectFetches entityType Evaluator.aspect.name)
  let names := Sorted.ofList (plans.map fun (_, plan) => plan.aspect)
  let fetched ← Run.fetchAspects entityType us names
  let here := localValues fetched plans
  let hs := hops fetched plans
  if hs.isEmpty then return here
  let (requests, missing) ← dropMissing evs r (hopRequests hs)
  let below ← nested requests
  return here.merge (hopValues hs missing below)

/-- The values that an evaluator finds. -/
def evaluator (evs : List Evaluator) (r : Registry) (nested : Requests → Run Resolution)
    (entityType : String) (us : List Urn) (ps : List Path) : Evaluator → Run Resolution
  | .identity => return identity us ps
  | .aspect => aspect evs r nested entityType us ps
  | .system => system r entityType us ps

/-- The paths that the evaluator at a place of the list has to resolve. -/
def assigned (evs : List Evaluator) (r : Registry) (entityType : String) (ps : List Path)
    (i : Nat) : List Path :=
  ps.filter fun p => evs.findIdx? (·.isEligible r entityType p) == some i

/-- The values for one request: the evaluators are asked in turn. -/
def request (evs : List Evaluator) (r : Registry) (nested : Requests → Run Resolution)
    (entityType : String) (q : Request) : Run Resolution :=
  if q.urns = [] ∨ q.paths = [] then return []
  else
    evs.zipIdx.foldlM (fun res (e, i) => do
      let ps := assigned evs r entityType q.paths i
      if ps = [] then return res
      else return res.merge (← evaluator evs r nested entityType q.urns ps e)) []

/-- The values for some requests, with a bound on the number of hops. -/
def requestsWithin (evs : List Evaluator) (r : Registry) : Nat → Requests → Run Resolution
  | 0, _ => return []
  | fuel + 1, rs =>
    rs.foldlM (fun res (entityType, q) => do
      return res.merge (← request evs r (requestsWithin evs r fuel) entityType q)) []

/-- The values for some requests. -/
def requests (evs : List Evaluator) (r : Registry) (rs : Requests) : Run Resolution :=
  requestsWithin evs r (rs.longest + 1) rs

end Resolve

/-- The values of some paths on some entities. -/
def resolve (evs : List Evaluator) (r : Registry) (us : List Urn) (ps : List Path) :
    Run Resolution :=
  if us = [] ∨ ps = [] then return []
  else Resolve.requests evs r (Requests.ofUrns us ps)

end CatalogRules

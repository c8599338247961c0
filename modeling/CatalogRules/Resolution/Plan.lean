import CatalogRules.Aspect
import CatalogRules.Registry.Basic
import CatalogRules.Resolution.Path
import CatalogRules.Text.Case
import CatalogRules.Urn

/-! # Plans

There are three evaluators of paths. The identity evaluator answers `urn` and `entityType` from the
name of the entity alone. The aspect evaluator follows a path into the aspect that its first segment
names; the path is cut after the shortest proper part of its fields that is declared as a reference,
and the rest is resolved on the entities that are referred to. The system evaluator derives times
from the envelopes of all aspects. -/

namespace CatalogRules

/-- The evaluators of paths. -/
inductive Evaluator where
  | identity | aspect | system
  deriving DecidableEq, Repr

namespace Evaluator

/-- The evaluators in the order in which they are asked. -/
def standard : List Evaluator := [.identity, .aspect, .system]

/-- The name of an evaluator. -/
def name : Evaluator → String
  | .identity => "identity"
  | .aspect => "aspect"
  | .system => "system"

/-- The evaluator looks into the store; otherwise it also answers for unknown entities. -/
def readsStore : Evaluator → Bool
  | .identity => false
  | .aspect => true
  | .system => true

end Evaluator

/-- What the identity evaluator knows. -/
inductive IdentityField where
  | urn | entityType
  deriving DecidableEq, Repr

namespace IdentityField

/-- The field that a path names. -/
def ofPath? (p : Path) : Option IdentityField :=
  if Text.sameIgnoringCase p.text "urn" then some .urn
  else if Text.sameIgnoringCase p.text "entityType" then some .entityType
  else none

/-- The value of a field. -/
def value (u : Urn) : IdentityField → String
  | .urn => u.text
  | .entityType => u.entityType

end IdentityField

/-- The times that the system evaluator derives. -/
inductive SystemField where
  | firstSynchronized | lastSynchronized | lastUpdated
  deriving DecidableEq, Repr

namespace SystemField

/-- The names of the fields. -/
def names : List (String × SystemField) :=
  [("firstSynchronized", .firstSynchronized), ("lastSynchronized", .lastSynchronized),
    ("lastUpdated", .lastUpdated)]

/-- The field that a path names, with two underscores in front or not. -/
def ofPath? (p : Path) : Option SystemField :=
  let name := match p.text.toList with
    | '_' :: '_' :: rest => String.ofList rest
    | _ => p.text
  (names.find? fun n => Text.sameIgnoringCase n.1 name).map (·.2)

/-- The run id that stands for a missing one. -/
def noRunId : String := "no-run-id-provided"

/-- The least of some numbers. -/
def least? : List Int → Option Int
  | [] => none
  | n :: ns => some (ns.foldl min n)

/-- The greatest of some numbers. -/
def greatest? : List Int → Option Int
  | [] => none
  | n :: ns => some (ns.foldl max n)

/-- The time of the last observation by a run that is known. -/
def observed? (e : Envelope) : Option Int := do
  let m ← e.systemMetadata
  let id ← m.runId
  if id = noRunId then none else m.lastObserved

/-- The time derived from the aspects of an entity. -/
def derive (f : SystemField) (aspects : Aspects) : Option Int :=
  let created := aspects.filterMap fun a => a.2.created.map (·.time)
  match f with
  | .firstSynchronized => least? created
  | .lastUpdated => greatest? created
  | .lastSynchronized => greatest? (aspects.filterMap fun a => observed? a.2)

end SystemField

/-- How a path is resolved in an aspect. -/
inductive Plan where
  | local (aspect : String) (fields : List String)
  | hop (aspect : String) (fields : List String) (targets : List String) (rest : Path)
  deriving DecidableEq, Repr

namespace Plan

/-- The aspect of a plan. -/
def aspect : Plan → String
  | .local a _ => a
  | .hop a _ _ _ => a

/-- The fields that are followed in the aspect. -/
def fields : Plan → List String
  | .local _ fs => fs
  | .hop _ fs _ _ => fs

/-- The cut after the shortest proper part that is declared as a reference, where `taken` are the
fields before: the part, the types that it refers to, and the rest. -/
def cut? (spec : AspectSpec) :
    List String → List String → Option (List String × List String × Path)
  | _, [] => none
  | _, [_] => none
  | taken, f :: g :: rest =>
    let part := taken ++ [f]
    match spec.references.lookup (Path.text part) with
    | some targets => some (part, targets, g :: rest)
    | none => cut? spec part (g :: rest)

/-- The plan for a path on the entities of a type. -/
def of? (r : Registry) (entityType : String) : Path → Option Plan
  | [] => none
  | a :: fields => do
    let spec ← r.aspect? entityType a
    match cut? spec [] fields with
    | some (part, targets, rest) => some (.hop a part targets rest)
    | none => some (.local a fields)

end Plan

namespace Evaluator

/-- The evaluator can resolve the path on the entities of a type. -/
def isEligible (r : Registry) (entityType : String) (p : Path) : Evaluator → Bool
  | .identity => (IdentityField.ofPath? p).isSome
  | .aspect => match p with
    | [] => false
    | a :: _ => (r.aspect? entityType a).isSome
  | .system => r.has entityType && (SystemField.ofPath? p).isSome

/-- The first of the evaluators that can resolve the path, with its place. -/
def firstEligible (r : Registry) (entityType : String) (p : Path) (evs : List Evaluator) :
    Option Evaluator :=
  evs.find? (·.isEligible r entityType p)

end Evaluator
end CatalogRules

import CatalogRules.Cache.Refresher
import CatalogRules.Definition.Validate
import CatalogRules.Evaluation.Commit
import CatalogRules.Settings.Basic

/-! # The engine

The engine evaluates the definitions in its cache, which a refresher keeps up to date. -/

namespace CatalogRules

/-- The engine. -/
structure Engine where
  registry : Registry
  refresher : Refresher

namespace Engine

/-- An engine whose refresher has been started. -/
def start (r : Registry) (settings : EngineSettings) : StateM Platform Engine := do
  return ⟨r, ← Refresher.start settings.pageSize settings.refreshIntervalSecs⟩

/-- The definitions in use. -/
def snapshot (e : Engine) : Snapshot := e.refresher.cache.snapshot

/-- The entity types that there are definitions about. -/
def entityTypes (e : Engine) : List String := e.snapshot.entityTypes

/-- Evaluates definitions for some entities. -/
def evaluate (e : Engine) (sel : Selection) (mode : Mode) (us : List Urn) : Run Evaluation :=
  Evaluation.run e.registry e.snapshot sel mode us

/-- Evaluates definitions for one entity. -/
def evaluateOne (e : Engine) (sel : Selection) (mode : Mode) (u : Urn) : Run Results := do
  return ((← e.evaluate sel mode [u]).lookup u).getD .empty

/-- The values of some paths on some entities. -/
def query (e : Engine) (us : List Urn) (ps : List Path) : Run Resolution :=
  resolve Evaluator.standard e.registry us ps

/-- The validation of the text of a definition, given the handlers of actions. -/
def validate (e : Engine) (h : Handlers) (text : String) : Validation :=
  Definition.validateText Evaluator.standard e.registry h.validate text

end Engine
end CatalogRules

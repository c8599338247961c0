import CatalogRules.Action.Basic
import CatalogRules.Json.Record
import CatalogRules.Json.Writer

/-! # Test results

The results of an entity list the outcomes of its tests, those that passed and those that failed.
`toValue` and `ofValue?` store them as JSON and load them again. -/

namespace CatalogRules

open Json (Value Document)

namespace Verdict

/-- The word for a verdict in stored results. -/
def word : Verdict → String
  | .success => "SUCCESS"
  | .failure => "FAILURE"

/-- The verdict for a word. -/
def ofWord? (w : String) : Option Verdict :=
  if w = "SUCCESS" then some .success else if w = "FAILURE" then some .failure else none

end Verdict

/-- The outcome of a test. -/
structure Outcome where
  test : String
  verdict : Verdict
  deriving DecidableEq, Repr

/-- The results of an entity. -/
structure Results where
  passing : List Outcome
  failing : List Outcome
  deriving DecidableEq, Repr

namespace Results

/-- No outcomes. -/
def empty : Results := ⟨[], []⟩

/-- Appends the outcome of a test. -/
def record (r : Results) (test : String) (passed : Bool) : Results :=
  if passed then { r with passing := r.passing ++ [⟨test, .success⟩] }
  else { r with failing := r.failing ++ [⟨test, .failure⟩] }

/-- All outcomes, the passing ones first. -/
def outcomes (r : Results) : List Outcome := r.passing ++ r.failing

/-- The number of outcomes. -/
def size (r : Results) : Nat := r.passing.length + r.failing.length

/-- There are no outcomes. -/
def isEmpty (r : Results) : Bool := r.passing.isEmpty && r.failing.isEmpty

/-- Appends the prior outcomes of the tests that were not evaluated. -/
def mergePrior (r prior : Results) (evaluated : List String) : Results :=
  let kept (os : List Outcome) := os.filter fun o => ¬ evaluated.contains o.test
  ⟨r.passing ++ kept prior.passing, r.failing ++ kept prior.failing⟩

/-- The stored form of an outcome. -/
def outcomeValue (o : Outcome) : Value :=
  .object [("test", .string o.test), ("type", .string o.verdict.word)]

/-- The stored form of results. -/
def toValue (r : Results) : Value :=
  .object [("passing", .array (r.passing.map outcomeValue)),
    ("failing", .array (r.failing.map outcomeValue))]

/-- The outcome in a document. -/
def outcome? : Document.Reader Outcome :=
  Document.record? ["test", "type"] fun levels slots =>
    match slots with
    | [test, type] => do
      let test ← Document.required? Document.text? levels test
      let word ← Document.required? Document.name? levels type
      some ⟨test, ← Verdict.ofWord? word⟩
    | _ => none

/-- The results in a document. -/
def results? : Document.Reader Results :=
  Document.record? ["passing", "failing"] fun levels slots =>
    match slots with
    | [passing, failing] => do
      let passing ← Document.defaulted? (Document.list? outcome?) [] levels passing
      let failing ← Document.defaulted? (Document.list? outcome?) [] levels failing
      some ⟨passing, failing⟩
    | _ => none

/-- The results that a text writes. -/
def ofText? (text : String) : Option Results := Document.readText? results? text

/-- The results that a value holds. -/
def ofValue? (v : Value) : Option Results := results? Json.maxLevels (Document.ofValue v)

end Results
end CatalogRules

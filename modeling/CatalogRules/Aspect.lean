import CatalogRules.Json.Record
import CatalogRules.Sorted

/-! # Aspects

An aspect of an entity is a JSON value in an envelope that may say when and by whom it was created
and by which run it was observed last. -/

namespace CatalogRules

open Json (Value Document)

/-- When, in milliseconds, and by whom something was created. -/
structure Stamp where
  time : Int
  actor : Option String
  deriving DecidableEq, Repr

/-- The run that wrote an aspect and the time at which it was observed last. -/
structure SystemMetadata where
  runId : Option String
  lastObserved : Option Int
  deriving DecidableEq, Repr

/-- An aspect in its envelope. -/
structure Envelope where
  value : Value
  created : Option Stamp
  systemMetadata : Option SystemMetadata
  deriving Inhabited

/-- The aspects of an entity, in order of their names. -/
abbrev Aspects := List (String × Envelope)

namespace Envelope

/-- An aspect without further information. -/
def ofValue (v : Value) : Envelope := ⟨v, none, none⟩

/-- The stamp in a document. -/
def stamp? : Document.Reader Stamp :=
  Document.record? ["time", "actor"] fun levels slots =>
    match slots with
    | [time, actor] => do
      let time ← Document.required? Document.signed? levels time
      let actor ← Document.optional? Document.text? levels actor
      some ⟨time, actor⟩
    | _ => none

/-- The system metadata in a document. -/
def systemMetadata? : Document.Reader SystemMetadata :=
  Document.record? ["runId", "lastObserved"] fun levels slots =>
    match slots with
    | [runId, lastObserved] => do
      let runId ← Document.optional? Document.text? levels runId
      let lastObserved ← Document.optional? Document.signed? levels lastObserved
      some ⟨runId, lastObserved⟩
    | _ => none

/-- The envelope in a document. -/
def envelope? : Document.Reader Envelope :=
  Document.record? ["value", "created", "systemMetadata"] fun levels slots =>
    match slots with
    | [value, created, metadata] => do
      let value ← Document.required? Document.toValue? levels value
      let created ← Document.optional? stamp? levels created
      let metadata ← Document.optional? systemMetadata? levels metadata
      some ⟨value, created, metadata⟩
    | _ => none

/-- The aspects in a document. -/
def aspects? : Document.Reader Aspects := fun levels d =>
  (Document.entries? envelope? levels d).map Sorted.ofPairs

/-- The envelope that a text writes. -/
def ofText? (text : String) : Option Envelope := Document.readText? envelope? text

end Envelope
end CatalogRules

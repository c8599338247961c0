import CatalogRules.Json.Record
import CatalogRules.Sorted

/-! # Registry of entity types

The registry says which aspects the entities of each type have, which of them is the key aspect, and
which fields of an aspect hold the names of other entities. All maps are in order of their keys. -/

namespace CatalogRules

open Json (Document)

/-- An aspect: for each field that refers to other entities, the types of these. -/
structure AspectSpec where
  references : List (String × List String)
  deriving DecidableEq, Repr

/-- An aspect without references. -/
def AspectSpec.plain : AspectSpec := ⟨[]⟩

/-- Declares a field that refers to entities. -/
def AspectSpec.refer (a : AspectSpec) (field : String) (targets : List String) : AspectSpec :=
  ⟨Sorted.put field targets a.references⟩

/-- An entity type: the name of its key aspect, and its aspects. -/
structure EntitySpec where
  keyAspect : String
  aspects : List (String × AspectSpec)
  deriving DecidableEq, Repr

namespace EntitySpec

/-- The entity type that has the key aspect only. -/
def ofKey (keyAspect : String) : EntitySpec := ⟨keyAspect, [(keyAspect, .plain)]⟩

/-- Sets an aspect. -/
def withAspect (e : EntitySpec) (name : String) (a : AspectSpec) : EntitySpec :=
  { e with aspects := Sorted.put name a e.aspects }

/-- Adds an aspect without references unless there is one of that name. -/
def withPlain (e : EntitySpec) (name : String) : EntitySpec :=
  if (e.aspects.lookup name).isSome then e else e.withAspect name .plain

/-- Adds aspects without references. -/
def withPlains (e : EntitySpec) (names : List String) : EntitySpec := names.foldl withPlain e

end EntitySpec

/-- The entity types with their specifications. -/
abbrev Registry := List (String × EntitySpec)

namespace Registry

/-- Sets the specification of an entity type. -/
def register (r : Registry) (entityType : String) (e : EntitySpec) : Registry :=
  Sorted.put entityType e r

/-- The entity type is registered. -/
def has (r : Registry) (entityType : String) : Bool := (r.lookup entityType).isSome

/-- The registered entity types, in order. -/
def entityTypes (r : Registry) : List String := r.map (·.1)

/-- An aspect of an entity type. -/
def aspect? (r : Registry) (entityType aspect : String) : Option AspectSpec := do
  (← r.lookup entityType).aspects.lookup aspect

/-- The names of the aspects of an entity type, in order. -/
def aspectNames (r : Registry) (entityType : String) : List String :=
  match r.lookup entityType with
  | some e => e.aspects.map (·.1)
  | none => []

/-- The key aspect of an entity type. -/
def keyAspect? (r : Registry) (entityType : String) : Option String :=
  (r.lookup entityType).map (·.keyAspect)

/-- The types to which a field of an aspect refers; `none` if it is not declared as a reference. -/
def targets? (r : Registry) (entityType aspect field : String) : Option (List String) := do
  (← r.aspect? entityType aspect).references.lookup field

/-! ### Reading -/

/-- The aspect in a document. -/
def aspectSpec? : Document.Reader AspectSpec :=
  Document.record? ["references"] fun levels slots =>
    match slots with
    | [references] => do
      let entries ← Document.defaulted? (Document.entries? (Document.list? Document.text?)) []
        levels references
      some ⟨Sorted.ofPairs entries⟩
    | _ => none

/-- The entity type in a document; the key aspect is always among its aspects. -/
def entitySpec? : Document.Reader EntitySpec :=
  Document.record? ["keyAspect", "aspects"] fun levels slots =>
    match slots with
    | [key, aspects] => do
      let key ← Document.required? Document.text? levels key
      let entries ← Document.defaulted? (Document.entries? aspectSpec?) [] levels aspects
      some (EntitySpec.withPlain ⟨key, Sorted.ofPairs entries⟩ key)
    | _ => none

/-- The registry that a text writes. -/
def ofText? (text : String) : Option Registry :=
  (Document.readText? (Document.entries? entitySpec?) text).map Sorted.ofPairs

end Registry
end CatalogRules

import CatalogRules.Definition.Basic
import CatalogRules.Keyed

/-! # Snapshots

A snapshot holds the definitions that were loaded together in two indexes: by their ids, in the
order in which the ids were met first, and by the entity types that they are about. Of several
definitions with one id the last one counts; it is the only one in either index. -/

namespace CatalogRules

/-- The definitions that were loaded together, by their ids and by their entity types. -/
structure Snapshot where
  byId : List (String × Definition)
  byType : List (String × List Definition)

namespace Snapshot

/-- The snapshot without definitions. -/
def empty : Snapshot := ⟨[], []⟩

/-- Lists a definition under each of its entity types, behind those that are there. -/
def enlist (m : List (String × List Definition)) (d : Definition) :
    List (String × List Definition) :=
  d.entityTypes.foldl (fun m t => Sorted.alter t (fun ds => ds.getD [] ++ [d]) m) m

/-- The snapshot of a list of definitions. The entity types are gathered when all ids are known, so
that a definition that was replaced leaves no trace. -/
def ofDefinitions (ds : List Definition) : Snapshot :=
  let byId := Keyed.ofPairs (ds.map fun d => (d.id, d))
  ⟨byId, (byId.map (·.2)).foldl enlist []⟩

/-- The definition with an id. -/
def get? (s : Snapshot) (id : String) : Option Definition := s.byId.lookup id

/-- The snapshot has a definition with the id. -/
def has (s : Snapshot) (id : String) : Bool := (s.get? id).isSome

/-- The definitions about an entity type. -/
def forType (s : Snapshot) (entityType : String) : List Definition :=
  (s.byType.lookup entityType).getD []

/-- The entity types that some definition is about, in order. -/
def entityTypes (s : Snapshot) : List String := s.byType.map (·.1)

/-- The number of definitions. -/
def size (s : Snapshot) : Nat := s.byId.length

/-- There are no definitions. -/
def isEmpty (s : Snapshot) : Bool := s.byId.isEmpty

end Snapshot
end CatalogRules

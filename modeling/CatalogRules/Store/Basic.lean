import CatalogRules.Aspect
import CatalogRules.Failure
import CatalogRules.Results

/-! # The store

The store keeps the aspects of the entities, in order of the entity names, and the texts of the test
definitions, in the order in which their ids were first put. It serves pages of definitions, pages
of entity names and the aspects of given entities, and it takes results. -/

namespace CatalogRules

open Json (Value Document)

/-- A test definition as it is stored. -/
structure RawDefinition where
  id : String
  text : String
  deriving DecidableEq, Repr

/-- A page of definitions, with the number of all definitions. -/
structure DefinitionPage where
  items : List RawDefinition
  total : Nat
  deriving DecidableEq, Repr

/-- A page of entity names, with the cursor of the next page. -/
structure ScrollPage where
  urns : List Urn
  next : Option String
  deriving DecidableEq

/-- The entities with their aspects and the texts of the definitions by their ids. -/
structure Store where
  entities : List (Urn × Aspects)
  definitions : List (String × String)
  deriving Inhabited

namespace Store

/-- The store without entities and definitions. -/
def empty : Store := ⟨[], []⟩

/-- The aspect that holds the results of tests. -/
def resultsAspect : String := "testResults"

/-! ### Definitions -/

/-- Sets the text of a definition; a known id keeps its place. -/
def putDefinition (s : Store) (id text : String) : Store :=
  { s with definitions := Keyed.put id text s.definitions }

/-- There is a definition of the given id. -/
def hasDefinition (s : Store) (id : String) : Bool := (s.definitions.lookup id).isSome

/-- Removes a definition. -/
def removeDefinition (s : Store) (id : String) : Store :=
  { s with definitions := Keyed.erase id s.definitions }

/-- A page of definitions. -/
def definitionPage (s : Store) (offset count : Nat) : DefinitionPage :=
  ⟨((s.definitions.drop offset).take count).map fun (id, text) => ⟨id, text⟩, s.definitions.length⟩

/-! ### Entities -/

/-- The aspects of an entity, if the entity is known. -/
def entity? (s : Store) (u : Urn) : Option Aspects := s.entities.lookup u

/-- Sets the aspects of an entity. -/
def putEntity (s : Store) (u : Urn) (a : Aspects) : Store :=
  { s with entities := Sorted.put u a s.entities }

/-- Sets an aspect of an entity, which becomes known by it. -/
def putAspect (s : Store) (u : Urn) (name : String) (e : Envelope) : Store :=
  s.putEntity u (Sorted.put name e ((s.entity? u).getD []))

/-- An aspect of an entity. -/
def aspect? (s : Store) (u : Urn) (name : String) : Option Envelope := do
  (← s.entity? u).lookup name

/-- Changes the value of an aspect, which starts as an empty object, and sets its stamp. -/
def modifyAspect (s : Store) (now : Int) (u : Urn) (name : String) (f : Value → Value) : Store :=
  let old := (s.aspect? u name).getD (.ofValue (.object []))
  s.putAspect u name { old with value := f old.value, created := some ⟨now, none⟩ }

/-- The names of the entities of a type, in order. -/
def urns (s : Store) (entityType : String) : List Urn :=
  (s.entities.map (·.1)).filter (·.entityType = entityType)

/-- The selected aspects of the known ones among some entities. -/
def fetch (s : Store) (us : List Urn) (names : List String) : List (Urn × Aspects) :=
  us.filterMap fun u => (s.entity? u).map fun a => (u, a.filter fun p => names.contains p.1)

/-! ### Results -/

/-- Stores the results of an entity. -/
def putResults (s : Store) (now : Int) (u : Urn) (r : Results) : Store :=
  s.putAspect u resultsAspect ⟨r.toValue, some ⟨now, none⟩, none⟩

/-- The stored results of an entity. -/
def results? (s : Store) (u : Urn) : Option Results := do
  Results.ofValue? (← s.aspect? u resultsAspect).value

/-! ### Scrolling -/

/-- The offset that a cursor stands for: digits, with a plus sign in front or not, of a number that
fits into a word. -/
def offsetOf? (cursor : String) : Option Nat :=
  let ds := match cursor.toList with
    | '+' :: ds => ds
    | ds => ds
  if ds ≠ [] ∧ ds.all Char.isDigit then
    let n := ds.foldl (fun n c => 10 * n + (c.toNat - '0'.toNat)) 0
    if n < Word.bound then some n else none
  else none

/-- The page at an offset: at most `max batch 1` names. The offset and the size are added as words
before the sum is cut to the number of the names, so that there is no page if the sum is no word. -/
def pageAt? (all : List Urn) (offset batch : Nat) : Option ScrollPage := do
  let stop := min (← Word.add? offset (max batch 1)) all.length
  some ⟨(all.take stop).drop offset, if stop < all.length then some (toString stop) else none⟩

/-- A page of the names of the entities of a type, or a failure; there is neither if the program
stops. -/
def scroll (s : Store) (entityType : String) (batch : Nat) (cursor : Option String) :
    Option (Except Failure ScrollPage) :=
  match cursor with
  | none => (pageAt? (s.urns entityType) 0 batch).map .ok
  | some c =>
    match offsetOf? c with
    | some offset => (pageAt? (s.urns entityType) offset batch).map .ok
    | none => some (.error (.search ("无效的游标 '" ++ c ++ "'")))

/-! ### Fixtures -/

/-- A definition in a fixture: its text, or the value that the text writes. -/
def definition? : Document.Reader RawDefinition :=
  Document.record? ["id", "definition"] fun levels slots =>
    match slots with
    | [id, definition] => do
      let id ← Document.required? Document.text? levels id
      let value ← Document.required? Document.toValue? levels definition
      some ⟨id, match value with | .string text => text | v => v.text⟩
    | _ => none

/-- An entity name in a document. -/
def urn? : Document.Reader Urn := fun levels d => do
  Urn.ofText? (← Document.text? levels d)

/-- An entity in a fixture. -/
def entityIn? : Document.Reader (Urn × Aspects) :=
  Document.record? ["urn", "aspects"] fun levels slots =>
    match slots with
    | [u, aspects] => do
      let u ← Document.required? urn? levels u
      let aspects ← Document.defaulted? Envelope.aspects? [] levels aspects
      some (u, aspects)
    | _ => none

/-- The store with the definitions and entities of a fixture. -/
def fixture? : Document.Reader Store :=
  Document.record? ["definitions", "entities"] fun levels slots =>
    match slots with
    | [definitions, entities] => do
      let ds ← Document.defaulted? (Document.list? definition?) [] levels definitions
      let es ← Document.defaulted? (Document.list? entityIn?) [] levels entities
      let s := ds.foldl (fun s d => s.putDefinition d.id d.text) empty
      some (es.foldl (fun s e => s.putEntity e.1 e.2) s)
    | _ => none

/-- The store of the fixture that a text writes. -/
def ofFixture? (text : String) : Option Store := Document.readText? fixture? text

end Store
end CatalogRules

import CatalogRules.Action.Arguments
import CatalogRules.Store.Basic

/-! # Edits

An action on the store edits a list in one aspect of each entity: it adds elements, removes them, or
replaces all of them. An element is identified by the entity name that it holds, either as the
element itself or in one of its fields. Edits leave the other fields of the aspect alone. -/

namespace CatalogRules

open Json (Value)

/-- How a list is edited. -/
inductive EditMode where
  | add | remove | replace
  deriving DecidableEq, Repr

/-- The list that an action edits: the aspect, the field with the list, and the field of an element
that holds the entity name, if it is not the element itself. -/
structure EditTarget where
  aspect : String
  list : String
  key : Option String
  typed : Bool
  deriving DecidableEq, Repr

namespace EditTarget

/-- The tags. -/
def tags : EditTarget := ⟨"globalTags", "tags", some "tag", false⟩

/-- The glossary terms. -/
def terms : EditTarget := ⟨"glossaryTerms", "terms", some "urn", false⟩

/-- The domains. -/
def domains : EditTarget := ⟨"domains", "domains", none, false⟩

/-- The owners, whose elements also hold the type of the ownership. -/
def owners : EditTarget := ⟨"ownership", "owners", some "owner", true⟩

end EditTarget

namespace ActionKind

/-- The list that an action edits. -/
def target : ActionKind → EditTarget
  | .addTags | .removeTags => .tags
  | .addGlossaryTerms | .removeGlossaryTerms => .terms
  | .setDomain | .unsetDomain | .addDomains | .removeDomains => .domains
  | .addOwners | .removeOwners => .owners

/-- How an action edits its list. -/
def editMode : ActionKind → EditMode
  | .addTags | .addGlossaryTerms | .addDomains | .addOwners => .add
  | .removeTags | .removeGlossaryTerms | .removeDomains | .removeOwners => .remove
  | .setDomain | .unsetDomain => .replace

end ActionKind

namespace Edit

/-- The entity name that an element holds. -/
def identity? (t : EditTarget) (item : Value) : Option String :=
  match t.key with
  | none => match item with
    | .string s => some s
    | _ => none
  | some k => match item.field? k with
    | some (.string s) => some s
    | _ => none

/-- The element for an entity name. -/
def element (t : EditTarget) (ownershipType : String) (u : Urn) : Value :=
  match t.key with
  | none => .string u.text
  | some k =>
    .object ((k, .string u.text) :: if t.typed then [("type", .string ownershipType)] else [])

/-- Appends an element for an entity name that no element holds. -/
def addOne (t : EditTarget) (ownershipType : String) (items : List Value) (u : Urn) : List Value :=
  if items.any fun i => identity? t i == some u.text then items
  else items ++ [element t ownershipType u]

/-- The edited list. -/
def items (t : EditTarget) (mode : EditMode) (args : Arguments) (old : List Value) : List Value :=
  match mode with
  | .add => args.values.foldl (addOne t args.ownershipType) old
  | .replace => args.values.foldl (addOne t args.ownershipType) []
  | .remove => old.filter fun i => ¬ args.values.any fun u => identity? t i == some u.text

/-- The aspect value with the edited list; what is no object counts as an empty one, what is no list
as an empty list. -/
def value (t : EditTarget) (mode : EditMode) (args : Arguments) (v : Value) : Value :=
  let fields := match v with
    | .object fields => fields
    | _ => []
  let old := match fields.lookup t.list with
    | some (.array items) => items
    | _ => []
  .object (Keyed.put t.list (.array (items t mode args old)) fields)

/-- The store after an action on some entities. -/
def store (now : Int) (kind : ActionKind) (args : Arguments) (s : Store) (us : List Urn) : Store :=
  us.foldl (fun s u =>
    s.modifyAspect now u kind.target.aspect (value kind.target kind.editMode args)) s

end Edit

/-- The kinds of actions that have a handler, in any order. -/
abbrev Handlers := List ActionKind

namespace Handlers

/-- The registered kinds, in order. -/
def kinds (h : Handlers) : List ActionKind := ActionKind.all.filter h.contains

/-- The parameters are accepted: there is a handler, and they have the arguments that it needs. -/
def validate (h : Handlers) (kind : ActionKind) (params : Params) : Except Failure Unit :=
  if h.contains kind then
    match Arguments.read kind params with
    | .ok _ => .ok ()
    | .error cause => .error (.action kind cause)
  else .error (.action kind .noHandler)

/-- A handler's own effect. -/
def handle (now : Int) (kind : ActionKind) (params : Params) (us : List Urn) (s : Store) :
    Except Failure Store :=
  match Arguments.read kind params with
  | .ok args => .ok (Edit.store now kind args s us)
  | .error cause => .error (.action kind cause)

/-- Applies an action to some entities through the handlers. -/
def apply (h : Handlers) (now : Int) (kind : ActionKind) (params : Params) (us : List Urn)
    (s : Store) : Except Failure Store := do
  h.validate kind params
  if us = [] then .ok s else handle now kind params us s

end Handlers
end CatalogRules

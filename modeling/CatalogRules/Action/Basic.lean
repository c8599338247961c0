import CatalogRules.Sorted
import CatalogRules.Text.Case

/-! # Actions

An action has a kind and parameters, a sorted map from names to lists of values. Actions are ordered
by kind, in the order of `ActionKind.all`, and then by their parameters. -/

namespace CatalogRules

/-- The kinds of actions. -/
inductive ActionKind where
  | addTags | removeTags
  | addGlossaryTerms | removeGlossaryTerms
  | setDomain | unsetDomain | addDomains | removeDomains
  | addOwners | removeOwners
  deriving DecidableEq, Repr

namespace ActionKind

/-- All kinds, in order. -/
def all : List ActionKind :=
  [.addTags, .removeTags, .addGlossaryTerms, .removeGlossaryTerms, .setDomain, .unsetDomain,
    .addDomains, .removeDomains, .addOwners, .removeOwners]

/-- The name of a kind. -/
def name : ActionKind → String
  | .addTags => "ADD_TAGS"
  | .removeTags => "REMOVE_TAGS"
  | .addGlossaryTerms => "ADD_GLOSSARY_TERMS"
  | .removeGlossaryTerms => "REMOVE_GLOSSARY_TERMS"
  | .setDomain => "SET_DOMAIN"
  | .unsetDomain => "UNSET_DOMAIN"
  | .addDomains => "ADD_DOMAINS"
  | .removeDomains => "REMOVE_DOMAINS"
  | .addOwners => "ADD_OWNERS"
  | .removeOwners => "REMOVE_OWNERS"

/-- The kind of a name, whatever the case of its letters. -/
def ofName? (name : String) : Option ActionKind :=
  all.find? fun k => Text.sameIgnoringCase k.name name

/-- The place of a kind in the order. -/
def rank (k : ActionKind) : Nat := all.idxOf k

end ActionKind

/-- The values of each parameter, in order of the names. -/
abbrev Params := List (String × List String)

/-- An action. -/
structure Action where
  kind : ActionKind
  params : Params
  deriving DecidableEq, Repr

namespace Action

/-- What actions are compared by: the rank of the kind, then names and values in turn. -/
def sortKey (a : Action) : List (List String) :=
  [String.singleton (Char.ofNat (48 + a.kind.rank))] :: a.params.flatMap fun p => [[p.1], p.2]

instance : LT Action := ⟨fun a b => a.sortKey < b.sortKey⟩

instance : DecidableLT Action := fun a b => inferInstanceAs (Decidable (a.sortKey < b.sortKey))

end Action

/-- The two verdicts of a test. -/
inductive Verdict where
  | success
  | failure
  deriving DecidableEq, Repr

/-- The actions that a definition lists for either verdict. -/
structure Actions where
  passing : List Action
  failing : List Action
  deriving DecidableEq, Repr

/-- The actions for a verdict. -/
def Actions.of (a : Actions) : Verdict → List Action
  | .success => a.passing
  | .failure => a.failing

end CatalogRules

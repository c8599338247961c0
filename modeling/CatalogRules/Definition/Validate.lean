import CatalogRules.Failure
import CatalogRules.Pattern.Reader
import CatalogRules.Resolution.Validate

/-! # Validating definitions

A definition is valid if its text can be read, if each of its paths can be resolved on each of its
entity types, and if the parameters of each of its actions are accepted. All problems are listed;
only a text that cannot be read gives a single one. -/

namespace CatalogRules.Definition

/-- The id that a definition has while it is validated. -/
def placeholderId : String := "dummy"

/-- What accepts or refuses the parameters of the actions of each kind. -/
abbrev ActionCheck := ActionKind → Params → Except Failure Unit

/-- The validation of an action. -/
def validateAction (check : ActionCheck) (a : Action) : Validation :=
  match check a.kind a.params with
  | .ok () => .ok
  | .error e => .problem e.message

/-- The validations of the paths and of the actions, in order. -/
def validations (evs : List Evaluator) (r : Registry) (check : ActionCheck) (d : Definition) :
    List Validation :=
  (d.references.map fun path => (Path.ofText path).validate evs r d.entityTypes) ++
    (d.actions.passing ++ d.actions.failing).map (validateAction check)

/-- The validation of the text of a definition. -/
def validateText (evs : List Evaluator) (r : Registry) (check : ActionCheck) (text : String) :
    Validation :=
  match Definition.read placeholderId text with
  | .error e => .problem e.message
  | .ok d => .all (d.validations evs r check)

end CatalogRules.Definition

import CatalogRules.Action.Basic
import CatalogRules.Urn

/-! # Arguments of actions

Every kind of action but `UNSET_DOMAIN` takes entity names in the parameter `values`; `SET_DOMAIN`
takes exactly one. The names have to be of the types that the kind allows. -/

namespace CatalogRules

/-- Why an action is refused or fails. -/
inductive ActionCause where
  | noValues
  | emptyValues
  | notUrn (value : String)
  | severalDomains (count : Nat)
  | wrongType (urn : String) (expected : List String)
  | noHandler
  | reported (message : String)
  deriving DecidableEq, Repr

/-- The wording of a cause. -/
def ActionCause.text : ActionCause → String
  | .noValues => "缺少必填参数 'values'"
  | .emptyValues => "参数 'values' 不能为空"
  | .notUrn value => s!"'{value}' 不是合法的 URN"
  | .severalDomains count => s!"只能指定一个域，实际为 {count} 个"
  | .wrongType urn expected =>
    "'" ++ urn ++ "' 的实体类型不是 " ++ String.intercalate "/" expected
  | .noHandler => "未注册该动作类型的处理器"
  | .reported message => message

/-- The arguments of an action. -/
structure Arguments where
  values : List Urn
  ownershipType : String
  deriving DecidableEq

namespace Arguments

/-- The ownership type that stands for a missing one. -/
def defaultOwnership : String := "NONE"

/-- The entity types of the values of an action; `none` if they do not matter. -/
def expectedTypes : ActionKind → Option (List String)
  | .addTags | .removeTags => some ["tag"]
  | .addGlossaryTerms | .removeGlossaryTerms => some ["glossaryTerm"]
  | .setDomain | .addDomains | .removeDomains => some ["domain"]
  | .addOwners | .removeOwners => some ["corpuser", "corpGroup"]
  | .unsetDomain => none

/-- The entity names of a list of texts. -/
def urns : List String → Except ActionCause (List Urn)
  | [] => .ok []
  | s :: ss =>
    match Urn.ofText? s with
    | some u => do .ok (u :: (← urns ss))
    | none => .error (.notUrn s)

/-- The values of an action. -/
def readValues (kind : ActionKind) (params : Params) : Except ActionCause (List Urn) :=
  if kind = .unsetDomain then .ok []
  else match params.lookup "values" with
    | none => .error .noValues
    | some [] => .error .emptyValues
    | some raw => urns raw

/-- The first of the values that is of none of the expected types. -/
def misfit? (kind : ActionKind) (values : List Urn) : Option (Urn × List String) := do
  let expected ← expectedTypes kind
  let u ← values.find? fun u => ¬ expected.contains u.entityType
  some (u, expected)

/-- The ownership type of the parameters: the single value of `type`, if there is a single one. -/
def readOwnership (params : Params) : String :=
  match params.lookup "type" with
  | some [single] => single
  | _ => defaultOwnership

/-- The arguments in the parameters of an action. -/
def read (kind : ActionKind) (params : Params) : Except ActionCause Arguments := do
  let values ← readValues kind params
  if kind = .setDomain ∧ values.length ≠ 1 then .error (.severalDomains values.length)
  else match misfit? kind values with
    | some (u, expected) => .error (.wrongType u.text expected)
    | none => .ok ⟨values, readOwnership params⟩

end Arguments
end CatalogRules

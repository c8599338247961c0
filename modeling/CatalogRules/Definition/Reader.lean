import CatalogRules.Definition.Basic
import CatalogRules.Json.Document
import CatalogRules.Predicate.Check

/-! # Reading definitions

A definition is an object with the fields `on`, `rules` and, optionally, `actions`. A rule node is
an array, which stands for the conjunction of its items, or an object. The object has one of the
fields `not`, `or`, `and`, or it is a leaf with a property, an operator and parameters. Older names
of fields are accepted in rule nodes and in the `on` block; where the newer name is present as well,
the older field is passed over. The faults name the path of the node they are about. -/

namespace CatalogRules.Definition

open Json (Value)

variable [Pattern.Library]

/-! ### Fields -/

/-- The newer name of a field, if the name is an older one. -/
def newerName? (key : String) : Option String :=
  if key = "operation" then some "operator"
  else if key = "query" then some "property"
  else if key = "match" then some "conditions"
  else none

/-- The fields under their newer names. -/
def normalize {β : Type} (fields : List (String × β)) : List (String × β) :=
  Keyed.ofPairs <| fields.filterMap fun (k, v) =>
    match newerName? k with
    | some newer => if (fields.lookup newer).isSome then none else some (newer, v)
    | none => some (k, v)

/-- The text of a string, a number or a truth value. -/
def scalarText? : Value → Option String
  | .string s => some s
  | .number n => some n.text
  | .bool b => some (if b then "true" else "false")
  | _ => none

/-- The texts of the items of an array. -/
def scalarTexts (fault : Nat → Fault) : Nat → List Value → Except Fault (List String)
  | _, [] => .ok []
  | i, v :: vs =>
    match scalarText? v with
    | some s => do .ok (s :: (← scalarTexts fault (i + 1) vs))
    | none => .error (fault i)

/-- The values of a parameter: the texts of an array, or a single text. -/
def stringList (path : String) : Value → Except Fault (List String)
  | .array items => scalarTexts (.itemNotScalar path) 0 items
  | v =>
    match scalarText? v with
    | some s => .ok [s]
    | none => .error (.valueShape path)

/-! ### Leaves -/

/-- The fields of a leaf that are not among its parameters. -/
def reserved : List String := ["property", "operator", "negate", "params"]

/-- The parameters of a leaf: the fields of `params`, or all fields that are not reserved. -/
def leafParams (path : String) (fields : List (String × Value)) :
    Except Fault (List (String × Value)) :=
  match fields.lookup "params" with
  | some (.object params) => .ok params
  | some _ => .error (.paramsNotObject path)
  | none => .ok (fields.filter fun p => ¬ reserved.contains p.1)

/-- The operands of the parameters, with indices from `index` on. -/
def literalOperands (path : String) :
    Nat → List (String × Value) → Except Fault (List (Operand Predicate))
  | _, [] => .ok []
  | index, (name, v) :: rest => do
    let values ← stringList s!"{path}.{name}" v
    .ok (⟨index, some name, .strings values⟩ :: (← literalOperands path (index + 1) rest))

/-- A node whose operands are fit for its operator. -/
def checked (path : String) (op : Operator) (xs : List (Operand Predicate)) :
    Except Fault Predicate :=
  match Predicate.checkOperands op xs with
  | .ok () => .ok (.node op xs false)
  | .error fault => .error (.operands path fault)

/-- The property of a leaf. -/
def leafProperty (path : String) (fields : List (String × Value)) : Except Fault String :=
  match fields.lookup "property" with
  | none => .error (.noProperty path)
  | some (.string "") => .error (.propertyEmpty path)
  | some (.string s) => .ok s
  | some _ => .error (.propertyNotString path)

/-- The operator of a leaf. -/
def leafOperator (path : String) (fields : List (String × Value)) : Except Fault Operator :=
  match fields.lookup "operator" with
  | some (.string name) =>
    match Operator.ofName? name with
    | some op => .ok op
    | none => .error (.unknownOperator path name)
  | _ => .error (.noOperator path)

/-- A leaf. -/
def leaf (path : String) (fields : List (String × Value)) : Except Fault Predicate := do
  let property ← leafProperty path fields
  let op ← leafOperator path fields
  let params ← leafParams path fields
  let literals ← literalOperands path 1 params
  checked path op (⟨0, some Predicate.propertyName, .property property⟩ :: literals)

/-! ### Rule nodes -/

/-- The fields of logical nodes, in the order in which they are looked for. -/
def logicalFields : List (String × Operator) := [("not", .not), ("or", .or), ("and", .and)]

/-- The logical fields that are present, with their contents. -/
def logicalPresent {β : Type} (fields : List (String × β)) : List (String × Operator × β) :=
  logicalFields.filterMap fun (key, op) => (fields.lookup key).map fun v => (key, op, v)

/-- The mark of an object that is a rule node; it does not count beside `not`. -/
def negateMark (path : String) (fields : List (String × Value)) : Except Fault Bool :=
  if (fields.lookup "not").isSome then .ok false
  else match fields.lookup "negate" with
    | none => .ok false
    | some .null => .ok false
    | some (.bool b) => .ok b
    | some _ => .error (.negateNotBoolean path)

/-- Marks a predicate. -/
def markIf (negate : Bool) (p : Predicate) : Predicate := if negate then p.negate else p

/-- A field of a rule node: its value, and what the value is at a given path if it is taken as a
rule node or as an array of rule nodes. -/
structure Field where
  value : Value
  rule : String → Except Fault Predicate
  rules : String → Except Fault (List Predicate)

/-- The predicate of an object, given its fields under their newer names. -/
def object (path : String) (fields : List (String × Field)) : Except Fault Predicate := do
  let values := fields.map fun (k, f) => (k, f.value)
  let negate ← negateMark path values
  let p ← match logicalPresent fields with
    | [] => leaf path values
    | [(key, .not, f)] => do .ok (Predicate.not (← f.rule s!"{path}.{key}"))
    | [(key, op, f)] => do
      let path := s!"{path}.{key}"
      let ps ← f.rules path
      checked path op (Predicate.compose op ps).operands
    | _ => .error (.severalLogical path)
  .ok (markIf negate p)

mutual

/-- The predicate of a rule node at a path. -/
def readRule : Value → String → Except Fault Predicate
  | .array items, path => do
    let ps ← readItems items path 0
    checked path .and (Predicate.and ps).operands
  | .object fields, path => object path (normalize (readFields fields))
  | _, path => .error (.ruleShape path)

/-- The predicates of the rule nodes in an array. -/
def readRules : Value → String → Except Fault (List Predicate)
  | .array items, path => readItems items path 0
  | _, path => .error (.logicalNotArray path)

/-- The predicates of a list of rule nodes with indices from `i` on. -/
def readItems : List Value → String → Nat → Except Fault (List Predicate)
  | [], _, _ => .ok []
  | v :: vs, path, i => do
    let p ← readRule v s!"{path}[{i}]"
    .ok (p :: (← readItems vs path (i + 1)))

/-- The fields of a rule node. -/
def readFields : List (String × Value) → List (String × Field)
  | [] => []
  | (k, v) :: rest => (k, ⟨v, readRule v, readRules v⟩) :: readFields rest

end

/-! ### Targeting, actions, definitions -/

/-- The entity types and the condition of the `on` block. -/
def readTargeting : Value → Except Fault (List String × Option Predicate)
  | .object raw => do
    let fields := normalize raw
    let types ← match fields.lookup "types" with
      | some (.array items) => scalarTexts .typeNotText 0 items
      | _ => .error .noTypes
    let conditions ← match fields.lookup "conditions" with
      | none => .ok none
      | some .null => .ok none
      | some v => do .ok (some (← readRule v "on.conditions"))
    .ok (Sorted.ofList types, conditions)
  | _ => .error .targetingNotObject

/-- The texts of an array that holds nothing else. -/
def texts? : List Value → Option (List String)
  | [] => some []
  | .string s :: vs => do some (s :: (← texts? vs))
  | _ => none

/-- The values of a parameter of an action. -/
def actionValues (path name : String) : Value → Except Fault (List String)
  | .string s => .ok [s]
  | .array items =>
    match texts? items with
    | some ss => .ok ss
    | none => .error (.actionItems path name)
  | _ => .error (.actionValue path name)

/-- The parameters of an action. -/
def actionParams (path : String) : Params → List (String × Value) → Except Fault Params
  | done, [] => .ok done
  | done, (name, v) :: rest => do
    let values ← actionValues path name v
    actionParams path (Sorted.put name values done) rest

/-- An action at a path. -/
def readAction (path : String) : Value → Except Fault Action
  | .object fields => do
    let kind ← match fields.lookup "type" with
      | some (.string name) =>
        match ActionKind.ofName? name with
        | some kind => .ok kind
        | none => .error (.unknownAction path name)
      | _ => .error (.noActionType path)
    let entries ← match fields.lookup "params" with
      | some (.object params) => .ok params
      | some _ => .error (.paramsNotObject path)
      | none => .ok (fields.filter fun p => p.1 ≠ "type")
    .ok ⟨kind, ← actionParams path [] entries⟩
  | _ => .error (.actionNotObject path)

/-- The actions of a list with indices from `i` on. -/
def readActionItems (path : String) : Nat → List Value → Except Fault (List Action)
  | _, [] => .ok []
  | i, v :: vs => do
    let a ← readAction s!"{path}[{i}]" v
    .ok (a :: (← readActionItems path (i + 1) vs))

/-- The actions of an optional array. -/
def readActionList (path : String) : Option Value → Except Fault (List Action)
  | none => .ok []
  | some .null => .ok []
  | some (.array items) => readActionItems path 0 items
  | some _ => .error (.actionListNotArray path)

/-- The actions of the optional `actions` block. -/
def readActions : Option Value → Except Fault Actions
  | none => .ok ⟨[], []⟩
  | some .null => .ok ⟨[], []⟩
  | some (.object fields) => do
    let passing ← readActionList "actions.passing" (fields.lookup "passing")
    let failing ← readActionList "actions.failing" (fields.lookup "failing")
    .ok ⟨passing, failing⟩
  | some _ => .error .actionsNotObject

/-- The definition that a value describes. -/
def ofValue (id : String) : Value → Except Fault Definition
  | .object fields => do
    let on ← match fields.lookup "on" with
      | some on => .ok on
      | none => .error (.noTargeting id)
    let (types, conditions) ← readTargeting on
    let node ← match fields.lookup "rules" with
      | some node => .ok node
      | none => .error (.noRules id)
    let rules ← readRule node "rules"
    let actions ← readActions (fields.lookup "actions")
    .ok ⟨id, types, conditions, rules, actions⟩
  | _ => .error (.notObject id)

/-- The definition that a text describes. -/
def ofText (id text : String) : Except Fault Definition :=
  match Value.ofText? text with
  | some v => ofValue id v
  | none => .error (.notJson id)

end CatalogRules.Definition

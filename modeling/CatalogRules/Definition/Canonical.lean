import CatalogRules.Definition.Basic
import CatalogRules.Json.Writer

/-! # Canonical form

The canonical form of a definition is a JSON value in which logical nodes are objects with one
field, leaves list their literal operands under `params`, and a negated node stands under `not`. -/

namespace CatalogRules

open Json (Value)

namespace Predicate

/-- The field of an operand in `params`; an operand without a name is named by its index. -/
def paramName {P : Type} (x : Operand P) : String := x.name.getD s!"operand{x.index}"

/-- The object of a leaf for its operands, given in written form: the property with index zero, the
operator and the parameters. -/
def leafForm (op : Operator) (xs : List (Operand Predicate × Value)) : Value :=
  let isSubject (x : Operand Predicate) : Bool := match x.expression with
    | .property _ => x.index == 0
    | _ => false
  let subject := xs.foldl (fun m (x, v) => if isSubject x then Keyed.put "property" v m else m) []
  let params := xs.foldl
    (fun m (x, v) => if isSubject x then m else Keyed.put (paramName x) v m) []
  .object <| Keyed.put "operator" (.string op.commonName) subject ++
    (if params = [] then [] else [("params", .object params)])

mutual

/-- The written form of a predicate. -/
def toValue : Predicate → Value
  | .node op xs negated =>
    let node := match op with
      | .not => .object [("not", ((operandValues xs).map (·.2)).headD .null)]
      | .and | .or => .object [(op.commonName, .array ((operandValues xs).map (·.2)))]
      | _ => leafForm op (operandValues xs)
    if negated then .object [("not", node)] else node

/-- The operands with their written forms. -/
def operandValues : List (Operand Predicate) → List (Operand Predicate × Value)
  | [] => []
  | ⟨i, name, .property path⟩ :: xs => (⟨i, name, .property path⟩, .string path) :: operandValues xs
  | ⟨i, name, .strings vs⟩ :: xs => (⟨i, name, .strings vs⟩, .ofStrings vs) :: operandValues xs
  | ⟨i, name, .nested p⟩ :: xs => (⟨i, name, .nested p⟩, toValue p) :: operandValues xs

end

end Predicate

/-- The written form of an action. -/
def Action.toValue (a : Action) : Value :=
  .object [("type", .string a.kind.name),
    ("params", .object (a.params.map fun p => (p.1, .ofStrings p.2)))]

/-- The canonical form of a definition. -/
def Definition.toValue (d : Definition) : Value :=
  let conditions := match d.conditions with
    | some p => [("conditions", p.toValue)]
    | none => []
  .object [
    ("on", .object (("types", .ofStrings d.entityTypes) :: conditions)),
    ("rules", d.rules.toValue),
    ("actions", .object [
      ("passing", .array (d.actions.passing.map Action.toValue)),
      ("failing", .array (d.actions.failing.map Action.toValue))])]

end CatalogRules

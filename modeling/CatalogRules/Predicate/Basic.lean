import CatalogRules.Operator
import CatalogRules.Sorted

/-! # Predicates

A predicate is a tree of operator nodes. An operand of a node refers to a property of the entity by
a dotted path, or is a list of strings, or is a predicate itself; it carries its index and may carry
a name. A node may be marked as negated.

`references` lists the paths that occur in a predicate, `nodes` lists its nodes from the root down.
-/

namespace CatalogRules

/-- What an operand stands for. -/
inductive Expression (P : Type) where
  | property (path : String)
  | strings (values : List String)
  | nested (p : P)
  deriving DecidableEq, Repr

/-- The type of the values of an expression. -/
def Expression.type {P : Type} : Expression P → ValueType
  | .property _ => .strings
  | .strings _ => .strings
  | .nested _ => .boolean

/-- An operand with its index and, possibly, its name. -/
structure Operand (P : Type) where
  index : Nat
  name : Option String
  expression : Expression P
  deriving DecidableEq, Repr

/-- A predicate. -/
inductive Predicate where
  | node (operator : Operator) (operands : List (Operand Predicate)) (negated : Bool)

namespace Predicate

instance : Inhabited Predicate := ⟨.node .and [] false⟩

/-- The operator at the root. -/
def operator : Predicate → Operator
  | .node op _ _ => op

/-- The operands of the root. -/
def operands : Predicate → List (Operand Predicate)
  | .node _ xs _ => xs

/-- The mark at the root. -/
def negated : Predicate → Bool
  | .node _ _ n => n

/-- The predicates among the operands of the root. -/
def children (p : Predicate) : List Predicate :=
  p.operands.filterMap fun x => match x.expression with
    | .nested q => some q
    | _ => none

/-- The name of an operand that refers to a property. -/
def propertyName : String := "property"

/-- The name of an operand with literal values. -/
def valuesName : String := "values"

/-- A node without the mark for negation over some predicates. -/
def compose (op : Operator) (ps : List Predicate) : Predicate :=
  .node op (ps.mapIdx fun i p => ⟨i, none, .nested p⟩) false

/-- The conjunction. -/
def and (ps : List Predicate) : Predicate := compose .and ps

/-- The disjunction. -/
def or (ps : List Predicate) : Predicate := compose .or ps

/-- The negation by a node of its own. -/
def not (p : Predicate) : Predicate := compose .not [p]

/-- A node about a single property. -/
def ofProperty (op : Operator) (path : String) : Predicate :=
  .node op [⟨0, some propertyName, .property path⟩] false

/-- A node that compares a property with some values. -/
def compare (op : Operator) (path : String) (values : List String) : Predicate :=
  .node op [⟨0, some propertyName, .property path⟩, ⟨1, some valuesName, .strings values⟩] false

/-- Toggles the mark at the root. -/
def negate : Predicate → Predicate
  | .node op xs n => .node op xs (!n)

/-! ### Equality -/

mutual

/-- Equality of predicates, with indices, names and marks. -/
def same : Predicate → Predicate → Bool
  | .node op xs n, .node op' ys n' => op == op' && n == n' && sameOperands xs ys

/-- Equality of lists of operands. -/
def sameOperands : List (Operand Predicate) → List (Operand Predicate) → Bool
  | [], [] => true
  | ⟨i, a, .nested p⟩ :: xs, ⟨j, b, .nested q⟩ :: ys =>
    i == j && a == b && same p q && sameOperands xs ys
  | ⟨i, a, .property p⟩ :: xs, ⟨j, b, .property q⟩ :: ys =>
    i == j && a == b && p == q && sameOperands xs ys
  | ⟨i, a, .strings p⟩ :: xs, ⟨j, b, .strings q⟩ :: ys =>
    i == j && a == b && p == q && sameOperands xs ys
  | _, _ => false

end

/-! ### References and nodes -/

mutual

/-- The paths that occur in a predicate, in order and with repetitions. -/
def paths : Predicate → List String
  | .node _ xs _ => operandPaths xs

/-- The paths that occur in some operands. -/
def operandPaths : List (Operand Predicate) → List String
  | [] => []
  | ⟨_, _, .property path⟩ :: xs => path :: operandPaths xs
  | ⟨_, _, .strings _⟩ :: xs => operandPaths xs
  | ⟨_, _, .nested p⟩ :: xs => paths p ++ operandPaths xs

end

/-- The set of the paths that occur in a predicate. -/
def references (p : Predicate) : List String := Sorted.ofList p.paths

mutual

/-- The number of nodes. -/
def size : Predicate → Nat
  | .node _ xs _ => operandSizes xs + 1

/-- The number of nodes of the predicates among some operands. -/
def operandSizes : List (Operand Predicate) → Nat
  | [] => 0
  | ⟨_, _, .nested p⟩ :: xs => size p + operandSizes xs
  | ⟨_, _, .property _⟩ :: xs => operandSizes xs
  | ⟨_, _, .strings _⟩ :: xs => operandSizes xs

end

mutual

/-- The nodes, each before the nodes below it. -/
def nodes : Predicate → List Predicate
  | .node op xs n => .node op xs n :: operandNodes xs

/-- The nodes of the predicates among some operands. -/
def operandNodes : List (Operand Predicate) → List Predicate
  | [] => []
  | ⟨_, _, .nested p⟩ :: xs => nodes p ++ operandNodes xs
  | ⟨_, _, .property _⟩ :: xs => operandNodes xs
  | ⟨_, _, .strings _⟩ :: xs => operandNodes xs

end

end Predicate
end CatalogRules

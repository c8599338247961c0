import CatalogRules.Predicate.Basic
import CatalogRules.Predicate.Fault

/-! # Checking operands

The operands of a node are checked against the arity of its operator: their number, then their
types, and for `REGEX_MATCH` the patterns in the second operand. The first fault in this order is
reported. -/

namespace CatalogRules.Predicate

variable {P : Type} [Pattern.Library]

/-- There are as many operands as expected. -/
def checkCount (op : Operator) (expected : Nat) (xs : List (Operand P)) :
    Except OperandFault Unit :=
  if xs.length = expected then .ok () else .error ⟨op, .count expected xs.length⟩

/-- All operands have the expected type. -/
def checkTypes (op : Operator) (expected : ValueType) :
    List (Operand P) → Except OperandFault Unit
  | [] => .ok ()
  | x :: xs =>
    if x.expression.type = expected then checkTypes op expected xs
    else .error ⟨op, .type x.index expected x.expression.type⟩

/-- All patterns can be read in their anchored form. -/
def checkPatterns : List String → Except OperandFault Unit
  | [] => .ok ()
  | p :: ps =>
    match Pattern.readAnchored p with
    | .ok _ => checkPatterns ps
    | .error fault => .error ⟨.regexMatch, .pattern p fault⟩

/-- The patterns among the operands of `REGEX_MATCH`: those of a literal second operand. -/
def patternsOf : List (Operand P) → List String
  | [_, ⟨_, _, .strings values⟩] => values
  | _ => []

/-- The operands of a node are fit for its operator. -/
def checkOperands (op : Operator) (xs : List (Operand P)) : Except OperandFault Unit :=
  match op.arity with
  | .variadic =>
    if xs = [] then .error ⟨op, .none⟩ else checkTypes op .boolean xs
  | .unary type => do
    checkCount op 1 xs
    checkTypes op type xs
  | .binary => do
    checkCount op 2 xs
    checkTypes op .strings xs
    if op = .regexMatch then checkPatterns (patternsOf xs) else .ok ()

/-- The root of a predicate has operands that are fit for its operator. -/
def check (p : Predicate) : Except OperandFault Unit := checkOperands p.operator p.operands

end CatalogRules.Predicate

import CatalogRules.Predicate.Basic
import CatalogRules.Predicate.Fault
import CatalogRules.Decimal.Numeral
import CatalogRules.Text.Part

/-! # Evaluating predicates

A predicate is evaluated from the leaves up, given the values of each property path. Operators on
strings hold if some value on the left and some value on the right are related; empty strings do not
count on either side. Numbers are compared as doubles, and values that are no numbers do not count.
A pattern has to match a whole value, and patterns that cannot be read do not count. -/

namespace CatalogRules.Predicate

variable [Pattern.Library]

/-- The values of each property path. -/
abbrev Valuation := String → List String

/-- An operand after its evaluation. -/
inductive Argument where
  | values (vs : List String)
  | truth (b : Bool)
  deriving DecidableEq, Repr

/-- The values that count. -/
def present (vs : List String) : List String := vs.filter (· ≠ "")

/-- Some present value on the left is related to some present value on the right. -/
def anyPair (r : String → String → Bool) (left right : List String) : Bool :=
  (present left).any fun l => (present right).any fun x => r l x

/-- Some number on the left is related to some number on the right. -/
def anyNumbers (r : Double → Double → Bool) (left right : List String) : Bool :=
  ((present left).filterMap Numeral.ofText?).any fun l =>
    ((present right).filterMap Numeral.ofText?).any fun x => r l x

/-- Some pattern matches the whole of some value. -/
def anyMatch (values patterns : List String) : Bool :=
  let regexes := (present patterns).filterMap fun p => (Pattern.readAnchored p).toOption
  (present values).any fun v => regexes.any fun r => Pattern.Library.occursIn r v

/-- The truth values of arguments that must be truth values. -/
def truths (op : Operator) : List Argument → Except OperandFault (List Bool)
  | [] => .ok []
  | .truth b :: xs => do .ok (b :: (← truths op xs))
  | .values _ :: _ => .error ⟨op, .notBoolean⟩

/-- The values of an argument that must be a list of values. -/
def valuesOf (op : Operator) : Argument → Except OperandFault (List String)
  | .values vs => .ok vs
  | .truth _ => .error ⟨op, .notStrings⟩

/-- The values of a single argument. -/
def unary (op : Operator) : List Argument → Except OperandFault (List String)
  | [a] => valuesOf op a
  | xs => .error ⟨op, .count 1 xs.length⟩

/-- The values of two arguments. -/
def binary (op : Operator) : List Argument → Except OperandFault (List String × List String)
  | [a, b] => do .ok (← valuesOf op a, ← valuesOf op b)
  | xs => .error ⟨op, .count 2 xs.length⟩

/-- The truth value of an operator for some arguments. -/
def applyOperator (op : Operator) (args : List Argument) : Except OperandFault Bool :=
  match op with
  | .and => do .ok ((← truths op args).all id)
  | .or => do .ok ((← truths op args).any id)
  | .not => do
    match ← truths op args with
    | [b] => .ok (!b)
    | bs => .error ⟨op, .count 1 bs.length⟩
  | .exists => do .ok (!(present (← unary op args)).isEmpty)
  | .isTrue => do .ok ((present (← unary op args)).any (Text.sameIgnoringCase "true"))
  | .isFalse => do
    let vs := present (← unary op args)
    .ok (vs.isEmpty || vs.any (Text.sameIgnoringCase "false"))
  | .anyEquals | .containsAny => do
    let (l, r) ← binary op args
    .ok (anyPair (fun a b => a == b) l r)
  | .containsStr => do
    let (l, r) ← binary op args
    .ok (anyPair (fun a b => Text.contains a.toList b.toList) l r)
  | .startsWith => do
    let (l, r) ← binary op args
    .ok (anyPair (fun a b => b.toList.isPrefixOf a.toList) l r)
  | .regexMatch => do
    let (l, r) ← binary op args
    .ok (anyMatch l r)
  | .greaterThan => do
    let (l, r) ← binary op args
    .ok (anyNumbers (fun a b => b < a) l r)
  | .lessThan => do
    let (l, r) ← binary op args
    .ok (anyNumbers (fun a b => a < b) l r)

mutual

/-- The truth value of a predicate. -/
def eval (v : Valuation) : Predicate → Except OperandFault Bool
  | .node op xs negated => do
    let args ← evalOperands v xs
    let b ← applyOperator op args
    .ok (b != negated)

/-- The arguments for some operands. -/
def evalOperands (v : Valuation) : List (Operand Predicate) → Except OperandFault (List Argument)
  | [] => .ok []
  | ⟨_, _, .property path⟩ :: xs => do .ok (.values (v path) :: (← evalOperands v xs))
  | ⟨_, _, .strings vs⟩ :: xs => do .ok (.values vs :: (← evalOperands v xs))
  | ⟨_, _, .nested p⟩ :: xs => do
    let b ← eval v p
    .ok (.truth b :: (← evalOperands v xs))

end

end CatalogRules.Predicate

import CatalogRules.Text.Case

/-! # Operators

The operators of the rule language, their two names, and what operands each of them takes. A name is
looked up without regard to the case of its letters. -/

namespace CatalogRules

/-- The two kinds of values. -/
inductive ValueType where
  | strings
  | boolean
  deriving DecidableEq, Repr

/-- The name of a kind of values. -/
def ValueType.text : ValueType → String
  | .strings => "list<string>"
  | .boolean => "boolean"

/-- What operands an operator takes: one or more truth values, a single operand of a given type, or
two lists of strings. -/
inductive Arity where
  | variadic
  | unary (type : ValueType)
  | binary
  deriving DecidableEq, Repr

/-- The description of an arity. -/
def Arity.text : Arity → String
  | .variadic => "variadic"
  | .unary type => "unary " ++ type.text
  | .binary => "binary"

/-- The operators of the rule language. -/
inductive Operator where
  | and | or | not
  | exists | anyEquals | containsAny | containsStr | startsWith | regexMatch
  | isTrue | isFalse | greaterThan | lessThan
  deriving DecidableEq, Repr

namespace Operator

/-- All operators, in the order in which names are looked up. -/
def all : List Operator :=
  [.and, .or, .not, .exists, .anyEquals, .containsAny, .containsStr, .startsWith, .regexMatch,
    .isTrue, .isFalse, .greaterThan, .lessThan]

/-- The name in rule documents. -/
def commonName : Operator → String
  | .and => "and"
  | .or => "or"
  | .not => "not"
  | .exists => "exists"
  | .anyEquals => "equals"
  | .containsAny => "contains_any"
  | .containsStr => "contains_str"
  | .startsWith => "starts_with"
  | .regexMatch => "regex_match"
  | .isTrue => "is_true"
  | .isFalse => "is_false"
  | .greaterThan => "greater_than"
  | .lessThan => "less_than"

/-- The symbol. -/
def symbol : Operator → String
  | .and => "AND"
  | .or => "OR"
  | .not => "NOT"
  | .exists => "EXISTS"
  | .anyEquals => "ANY_EQUALS"
  | .containsAny => "CONTAINS_ANY"
  | .containsStr => "CONTAINS_STR"
  | .startsWith => "STARTS_WITH"
  | .regexMatch => "REGEX_MATCH"
  | .isTrue => "IS_TRUE"
  | .isFalse => "IS_FALSE"
  | .greaterThan => "GREATER_THAN"
  | .lessThan => "LESS_THAN"

/-- The operator with a given name or symbol. -/
def ofName? (name : String) : Option Operator :=
  all.find? fun op =>
    Text.sameIgnoringCase op.commonName name || Text.sameIgnoringCase op.symbol name

/-- The operands of the operator. -/
def arity : Operator → Arity
  | .and | .or => .variadic
  | .not => .unary .boolean
  | .exists | .isTrue | .isFalse => .unary .strings
  | .anyEquals | .containsAny | .containsStr | .startsWith | .regexMatch | .greaterThan
  | .lessThan => .binary

/-- The operands of a logical operator are nested predicates. -/
def isLogical : Operator → Bool
  | .and | .or | .not => true
  | _ => false

theorem ofName?_commonName (op : Operator) : ofName? op.commonName = some op := by
  cases op <;> decide +kernel

end Operator
end CatalogRules

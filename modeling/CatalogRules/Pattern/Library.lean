/-! # Libraries of regular expressions

Patterns are regular expressions of a library (`Pattern.Library`). What the program uses of the
library is that it reads an expression or refuses it, for its syntax or for its size, and that it
tells whether an expression occurs in a text. The program wants matches that extend over a whole
text, so it pastes a pattern between the marks for the start and the end of the text before it has
it read (`anchored`). -/

namespace CatalogRules.Pattern

/-- Why a pattern is refused. -/
inductive Fault where
  | malformed
  | tooLarge
  deriving DecidableEq, Repr

/-- What is wrong with the syntax of an expression: a closing parenthesis that closes no group, or
something else. -/
inductive SyntaxFault where
  | unopened
  | other
  deriving DecidableEq, Repr

/-- A library of regular expressions. -/
class Library where
  /-- Expressions that have been read. -/
  Expression : Type
  /-- The expression that a text writes. -/
  parse : String → Except SyntaxFault Expression
  /-- The limit on nesting or on size that an expression exceeds. -/
  excess? : Expression → Option Fault
  /-- An expression matches some part of a text. -/
  occursIn : Expression → String → Bool
  /-- An expression matches the part of a text from the one place to the other. -/
  Matches : Expression → String → Nat → Nat → Prop

variable [Library]

/-- The expression of a pattern that keeps to the syntax and to the limits. -/
def read (pattern : String) : Except Fault Library.Expression :=
  match Library.parse pattern with
  | .error _ => .error .malformed
  | .ok e =>
    match Library.excess? e with
    | some fault => .error fault
    | none => .ok e

/-- A pattern between the marks for the start and the end of the text. -/
def anchored (pattern : String) : String := "^(?:" ++ pattern ++ ")$"

/-- The expression for matches that extend over a whole text. -/
def readAnchored (pattern : String) : Except Fault Library.Expression := read (anchored pattern)

end CatalogRules.Pattern

import CatalogRules.Operator
import CatalogRules.Pattern.Library

/-! # Faults of operands

Why the operands of a node are refused, with the wording of the messages. -/

namespace CatalogRules

/-- Why operands are refused. -/
inductive OperandCause where
  | none
  | count (expected actual : Nat)
  | type (index : Nat) (expected actual : ValueType)
  | pattern (text : String) (fault : Pattern.Fault)
  | notBoolean
  | notStrings
  deriving DecidableEq, Repr

/-- A fault of the operands of an operator. -/
structure OperandFault where
  operator : Operator
  cause : OperandCause
  deriving DecidableEq, Repr

/-- The wording of the refusal of a pattern that is too large; the reason for refusing a malformed
one is not spelled out. -/
def Pattern.Fault.text : Pattern.Fault → String
  | .malformed => ""
  | .tooLarge => ": Compiled regex exceeds size limit of 10485760 bytes."

/-- The wording of a cause. -/
def OperandCause.text : OperandCause → String
  | .none => "至少需要一个操作数"
  | .count expected actual => s!"需要 {expected} 个操作数，实际为 {actual}"
  | .type index expected actual =>
    s!"第 {index} 个操作数类型应为 {expected.text}，实际为 {actual.text}"
  | .pattern text fault => s!"无效的正则表达式 {text}{fault.text}"
  | .notBoolean => "操作数应为布尔值，实际为字符串列表"
  | .notStrings => "操作数应为字符串列表，实际为布尔值"

/-- The wording of a fault. -/
def OperandFault.text (f : OperandFault) : String := f.operator.symbol ++ ": " ++ f.cause.text

end CatalogRules

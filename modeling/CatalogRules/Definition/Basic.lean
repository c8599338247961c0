import CatalogRules.Action.Basic
import CatalogRules.Predicate.Fault
import CatalogRules.Predicate.Basic

/-! # Test definitions

A definition names the entity types that it is about, may restrict the entities by a condition, and
has rules that decide the verdict and actions for either verdict. -/

namespace CatalogRules

/-- A test definition. The entity types are a sorted set. -/
structure Definition where
  id : String
  entityTypes : List String
  conditions : Option Predicate
  rules : Predicate
  actions : Actions

namespace Definition

/-- Equality of definitions. -/
def same (a b : Definition) : Bool :=
  a.id == b.id && a.entityTypes == b.entityTypes && a.rules.same b.rules &&
    a.actions == b.actions &&
    match a.conditions, b.conditions with
    | none, none => true
    | some p, some q => p.same q
    | _, _ => false

/-- The property paths of the rules and of the conditions. -/
def references (d : Definition) : List String :=
  Sorted.ofList (d.rules.paths ++ (d.conditions.map Predicate.paths).getD [])

/-- Why a document is no definition. -/
inductive Fault where
  | notJson (id : String)
  | notObject (id : String)
  | noTargeting (id : String)
  | noRules (id : String)
  | targetingNotObject
  | noTypes
  | typeNotText (index : Nat)
  | ruleShape (path : String)
  | negateNotBoolean (path : String)
  | logicalNotArray (path : String)
  | severalLogical (path : String)
  | noProperty (path : String)
  | propertyNotString (path : String)
  | propertyEmpty (path : String)
  | noOperator (path : String)
  | unknownOperator (path name : String)
  | paramsNotObject (path : String)
  | itemNotScalar (path : String) (index : Nat)
  | valueShape (path : String)
  | operands (path : String) (fault : OperandFault)
  | actionsNotObject
  | actionListNotArray (path : String)
  | actionNotObject (path : String)
  | noActionType (path : String)
  | unknownAction (path name : String)
  | actionItems (path name : String)
  | actionValue (path name : String)

/-- The wording of a fault. -/
def Fault.text : Fault → String
  | .notJson id => s!"测试 '{id}' 不是合法的 JSON"
  | .notObject id => s!"测试 '{id}' 的定义必须是 JSON 对象"
  | .noTargeting id => s!"测试 '{id}' 缺少 on 块"
  | .noRules id => s!"测试 '{id}' 缺少 rules 块"
  | .targetingNotObject => "on 块必须是对象"
  | .noTypes => "on 块缺少 types 数组"
  | .typeNotText index => s!"on.types[{index}] 必须是字符串"
  | .ruleShape path => s!"规则节点 '{path}' 必须是对象或数组"
  | .negateNotBoolean path => s!"'{path}.negate' 必须是布尔值"
  | .logicalNotArray path => s!"逻辑节点 '{path}' 必须是数组"
  | .severalLogical path => s!"规则节点 '{path}' 只能包含 not/or/and 中的一个"
  | .noProperty path => s!"叶子节点 '{path}' 缺少 property 字段"
  | .propertyNotString path => s!"叶子节点 '{path}' 的 property 必须是字符串"
  | .propertyEmpty path => s!"叶子节点 '{path}' 的 property 不能为空"
  | .noOperator path => s!"叶子节点 '{path}' 缺少 operator 字段"
  | .unknownOperator path name => s!"叶子节点 '{path}' 使用了无法识别的操作符 '{name}'"
  | .paramsNotObject path => s!"'{path}.params' 必须是对象"
  | .itemNotScalar path index => s!"'{path}[{index}]' 必须是字符串、数字或布尔值"
  | .valueShape path => s!"'{path}' 必须是字符串或字符串数组"
  | .operands path fault => s!"规则节点 '{path}' 校验失败: 操作数无效: {fault.text}"
  | .actionsNotObject => "actions 必须是对象"
  | .actionListNotArray path => s!"'{path}' 必须是数组"
  | .actionNotObject path => s!"动作 '{path}' 必须是对象"
  | .noActionType path => s!"动作 '{path}' 缺少 type 字段"
  | .unknownAction path name => s!"动作 '{path}' 的类型 '{name}' 不受支持"
  | .actionItems path name => s!"动作参数 '{path}.{name}' 只能包含字符串"
  | .actionValue path name => s!"动作参数 '{path}.{name}' 必须是字符串或字符串数组"

end Definition
end CatalogRules

import CatalogRules.Action.Arguments
import CatalogRules.Definition.Reader

/-! # Failures

What can go wrong, sorted by kind. The message of a failure is the label of its kind followed by the
detail; the failure of an action names the kind of the action. Failures of the collaborators (store,
definition source, result sink, actions, search) are told apart from those of the input. -/

namespace CatalogRules

/-- The kinds of failures. -/
inductive FailureKind where
  | parse | invalidOperand | invalidUrn | entityStore | definitionFetch | persist | action | search
  | json
  deriving DecidableEq, Repr

namespace FailureKind

/-- The label of a kind. -/
def label : FailureKind → String
  | .parse => "规则定义解析失败"
  | .invalidOperand => "操作数无效"
  | .invalidUrn => "无效的实体 URN"
  | .entityStore => "实体存储读取失败"
  | .definitionFetch => "规则定义拉取失败"
  | .persist => "测试结果写入失败"
  | .action => "动作执行失败"
  | .search => "实体检索失败"
  | .json => "JSON 序列化错误"

/-- The failure comes from a collaborator. -/
def ofCollaborator : FailureKind → Bool
  | .entityStore | .definitionFetch | .persist | .action | .search => true
  | _ => false

/-- The message of a failure; `subject` is the name of the kind of the action that failed. -/
def describe (kind : FailureKind) (subject detail : String) : String :=
  match kind with
  | .action => kind.label ++ " [" ++ subject ++ "]: " ++ detail
  | _ => kind.label ++ ": " ++ detail

end FailureKind

/-- A failure. -/
inductive Failure where
  | parse (fault : Definition.Fault)
  | invalidOperand (fault : OperandFault)
  | invalidUrn (text : String)
  | entityStore (message : String)
  | definitionFetch (message : String)
  | persist (message : String)
  | action (kind : ActionKind) (cause : ActionCause)
  | search (message : String)
  | json

namespace Failure

/-- The kind of a failure. -/
def kind : Failure → FailureKind
  | .parse _ => .parse
  | .invalidOperand _ => .invalidOperand
  | .invalidUrn _ => .invalidUrn
  | .entityStore _ => .entityStore
  | .definitionFetch _ => .definitionFetch
  | .persist _ => .persist
  | .action _ _ => .action
  | .search _ => .search
  | .json => .json

/-- The name of the kind of the action that failed. -/
def subject : Failure → String
  | .action kind _ => kind.name
  | _ => ""

/-- What is said besides the label. -/
def detail : Failure → String
  | .parse fault => fault.text
  | .invalidOperand fault => fault.text
  | .invalidUrn text => text
  | .entityStore message => message
  | .definitionFetch message => message
  | .persist message => message
  | .action _ cause => cause.text
  | .search message => message
  | .json => ""

/-- The message of a failure. -/
def message (f : Failure) : String := f.kind.describe f.subject f.detail

end Failure

/-- The entity name that a text writes, or the failure. -/
def Urn.read (s : String) : Except Failure Urn :=
  match Urn.ofText? s with
  | some u => .ok u
  | none => .error (.invalidUrn s)

/-- The definition that a text describes, or the failure. -/
def Definition.read [Pattern.Library] (id text : String) : Except Failure Definition :=
  (Definition.ofText id text).mapError .parse

end CatalogRules

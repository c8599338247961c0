import CatalogRules.Backfill
import CatalogRules.CommandLine.Command
import CatalogRules.Registry.Standard

/-! # Executing commands

A command works on a platform of its own, whose store is filled from the fixture. What it gives is
shown as JSON. -/

namespace CatalogRules.CommandLine

open Json (Value)

/-- Why a command fails. -/
inductive Trouble where
  | unreadable (c : Command)
  | malformed (fixtures : String)
  | failure (f : Failure)

namespace Trouble

/-- The message. -/
def message : Trouble → String
  | .unreadable (.validate file) => "读取测试定义失败: " ++ file
  | .unreadable c => "读取夹具文件失败: " ++ c.file
  | .malformed fixtures => "解析夹具文件失败: " ++ fixtures
  | .failure f => f.message

end Trouble

/-- What a command gives. -/
inductive Output where
  | validation (v : Validation)
  | evaluation (rs : Evaluation)
  | report (r : BackfillReport)

/-- What a command gives as JSON; a report says when the backfill began and when it ended. -/
def Output.toValue (started finished : String) : Output → Value
  | .validation v => .object [("valid", .bool v.valid), ("messages", .ofStrings v.messages)]
  | .evaluation rs => .object (rs.map fun (u, r) => (u.text, r.toValue))
  | .report r => .object [
      ("entityTypes", .ofStrings r.entityTypes),
      ("batches", .number (.int r.batches)),
      ("entities", .number (.int r.entities)),
      ("failedBatches", .number (.int r.failedBatches)),
      ("startedAt", .string started),
      ("finishedAt", .string finished)]

namespace Command

/-- The mode of an evaluation. -/
def modeOf (dryRun : Bool) : Mode := if dryRun then .evaluateOnly else .full

/-- The entities that are named, or all entities of the types that there are definitions about. -/
def entities (e : Engine) (urns : List String) : Run (List Urn) := do
  if urns = [] then return e.entityTypes.flatMap (← get).store.urns
  else match urns.mapM Urn.read with
    | .ok us => return us
    | .error f => throw f

/-- Performs a command with an engine, given the text of its file. -/
def perform (settings : EngineSettings) (e : Engine) (text : String) : Command → Run Output
  | .validate _ => return .validation (e.validate (← get).handlers text)
  | .evaluate _ urns tests dryRun => do
    let us ← entities e urns
    let sel : Selection := if tests = [] then .all else .only tests
    return .evaluation (← e.evaluate sel (modeOf dryRun) us)
  | .backfill _ dryRun => do
    let report ← (e.backfill (modeOf dryRun) settings.backfillLimits : StateM Platform _)
    return .report report

/-- Starts an engine and performs a command with it. -/
def runOn (settings : EngineSettings) (text : String) (c : Command) : Run Output := do
  let e ← (Engine.start Registry.standard settings : StateM Platform Engine)
  let (loaded, refresher) ← (e.refresher.refresh : StateM Platform _)
  match loaded with
  | .error f => throw f
  | .ok _ => perform settings { e with refresher } text c

/-- The store that a command works on, given the text of its file. -/
def store? (text : String) : Command → Option Store
  | .validate _ => some .empty
  | _ => Store.ofFixture? text

/-- Executes a command, given the text of its file, if that could be read, and the time. -/
def execute (settings : EngineSettings) (now : Int) (text : Option String) (c : Command) :
    Except Trouble Output :=
  match text with
  | none => .error (.unreadable c)
  | some text =>
    match c.store? text with
    | none => .error (.malformed c.file)
    | some s => ((runOn settings text c).run (.ofStore s ActionKind.all now)).1.mapError .failure

end Command
end CatalogRules.CommandLine

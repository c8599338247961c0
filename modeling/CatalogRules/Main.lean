import CatalogRules.CommandLine.Execute
import CatalogRules.Settings.Load
import CatalogRules.Settings.Standard
import Std.Time.Format

/-! # The program

Reads the arguments, the settings and the file of the command, executes the command and prints what
it gives. -/

namespace CatalogRules.Program

open CommandLine

/-- The name under which the service looks up its settings. -/
def serviceName : String := "metadata-test-engine"

/-- The variable that names the directory of the settings. -/
def directoryVariable : String := "CONFIG_DIR"

/-- The directory of the settings if no variable names it. -/
def defaultDirectory : String := "config"

/-- The version of the program. -/
def version : String := "0.1.0"

/-- How the program is called. -/
def usage : String :=
  "Usage: test-engine validate <FILE>\n" ++
  "       test-engine evaluate --fixtures <FIXTURES> [--urn <URN>] [--test <TEST>] [--dry-run]\n" ++
  "       test-engine backfill --fixtures <FIXTURES> [--dry-run]"

/-- What is wrong with the arguments. -/
def complaint : Refusal → String
  | .missingArgument => "error: a required argument is missing"
  | .missingValue => "error: an argument has no value"
  | .surplusValue => "error: a flag takes no value"
  | .unknownArgument => "error: unexpected argument"
  | .unknownCommand => "error: unrecognized subcommand"
  | .conflict => "error: an argument was given more than once"
  | .help | .version | .helpInstead => usage

/-- The text of a file, if it can be read. -/
def readText (path : String) : IO (Option String) := do
  try
    return some (← IO.FS.readFile path)
  catch _ => return none

/-- The variables with the given names that are set. -/
def readVariables (names : List String) : IO (List (String × String)) := do
  let found ← names.mapM fun name => return (name, ← IO.getEnv name)
  return found.filterMap fun (name, value) => value.map fun v => (name, v)

/-- The settings of the service; standard ones if they cannot be loaded. -/
def loadSettings : IO EngineSettings := do
  let vars ← readVariables (Settings.environmentVariable :: Settings.variableNames)
  let environment := Settings.environmentIn vars
  let directory := (← IO.getEnv directoryVariable).getD defaultDirectory
  let names := ["default", environment, serviceName].flatMap fun name =>
    [name ++ ".toml", name ++ ".toml.toml"]
  let files ← names.mapM fun name => return (name, ← readText (directory ++ "/" ++ name))
  let files := files.filterMap fun (name, text) => text.map fun t => (name, t)
  match Settings.load serviceName environment files vars with
  | .ok s => return s.engine
  | .error _ =>
    IO.eprintln "Failed to load config, using defaults"
    return .standard

/-- The time on the clock. -/
def clock : IO Std.Time.Timestamp := Std.Time.Timestamp.now

/-- The written form of a time. -/
def timeText (t : Std.Time.Timestamp) : String :=
  (Std.Time.DateTime.ofTimestamp t .UTC).toISO8601String

/-- Executes a command and prints what it gives. -/
def execute (c : Command) : IO UInt32 := do
  let settings ← loadSettings
  let text ← readText c.file
  let started ← clock
  match c.execute settings started.toMillisecondsSinceUnixEpoch.val text with
  | .ok output =>
    let finished ← clock
    IO.println (output.toValue (timeText started) (timeText finished)).indentedText
    return 0
  | .error trouble =>
    IO.eprintln ("Error: " ++ trouble.message)
    return 1

/-- Answers arguments that are no command. -/
def refuse (r : Refusal) : IO UInt32 := do
  match r with
  | .help =>
    IO.println usage
    return 0
  | .version =>
    IO.println ("test-engine " ++ version)
    return 0
  | _ =>
    IO.eprintln (complaint r)
    return 2

end CatalogRules.Program

/-- Executes the command that the arguments give. -/
def main (args : List String) : IO UInt32 :=
  match CatalogRules.CommandLine.Command.parse args with
  | .ok c => CatalogRules.Program.execute c
  | .error r => CatalogRules.Program.refuse r

import CatalogRules.CommandLine.Grammar

/-! # Commands

There are three commands: `validate` checks the definition in a file, `evaluate` evaluates entities
of a fixture, `backfill` evaluates all of them. `help`, which may name one of the commands, and the
flags for help and for the version take the place of a command. -/

namespace CatalogRules.CommandLine

/-- A command with its arguments. -/
inductive Command where
  | validate (file : String)
  | evaluate (fixtures : String) (urns tests : List String) (dryRun : Bool)
  | backfill (fixtures : String) (dryRun : Bool)
  deriving DecidableEq, Repr

namespace Command

/-- The operand of `validate`. -/
def fileOperand : OptionSpec := ⟨"file", .path, true⟩

/-- The option for the fixture. -/
def fixturesOption : OptionSpec := ⟨"fixtures", .path, true⟩

/-- The option for entities. -/
def urnOption : OptionSpec := ⟨"urn", .texts, false⟩

/-- The option for definitions. -/
def testOption : OptionSpec := ⟨"test", .texts, false⟩

/-- The flag for an evaluation that is not committed. -/
def dryRunFlag : OptionSpec := ⟨"dry-run", .flag, false⟩

/-- The first value of an option. -/
def first (g : Given) (o : OptionSpec) : String := (g.values o.name).headD ""

/-- A command by its name: the arguments it takes, and what it is with its options. -/
structure Form where
  name : String
  grammar : Grammar
  build : Given → Command

/-- The commands. -/
def forms : List Form := [
  ⟨"validate", ⟨[], some fileOperand⟩, fun g => .validate (first g fileOperand)⟩,
  ⟨"evaluate", ⟨[fixturesOption, urnOption, testOption, dryRunFlag], none⟩, fun g =>
    .evaluate (first g fixturesOption) (g.values urnOption.name) (g.values testOption.name)
      (g.has dryRunFlag.name)⟩,
  ⟨"backfill", ⟨[fixturesOption, dryRunFlag], none⟩, fun g =>
    .backfill (first g fixturesOption) (g.has dryRunFlag.name)⟩]

/-- The command of a name. -/
def form? (name : String) : Option Form := forms.find? (·.name == name)

/-- The word that asks for help. -/
def helpWord : String := "help"

/-- The word is a command or asks for help. -/
def isWord (s : String) : Bool := s == helpWord || (form? s).isSome

/-- What the words after `help` lead to. -/
def helpFor : List String → Refusal
  | [] => .help
  | [word] => if isWord word then .help else .unknownCommand
  | _ => .unknownCommand

/-- What a flag in front of the command leads to. -/
def frontFlag (cs : List Char) : Refusal :=
  match cs with
  | '-' :: cs =>
    let (name, value) := Grammar.splitValue cs
    if name = Grammar.helpName then (if value.isSome then .surplusValue else .help)
    else if name = "version" then (if value.isSome then .surplusValue else .version)
    else .unknownArgument
  | 'h' :: _ => .help
  | 'V' :: _ => .version
  | _ => .unknownArgument

/-- The command that some arguments give. After `--` there is no command any more. -/
def parse : List String → Except Refusal Command
  | [] => .error .helpInstead
  | "--" :: [] => .error .helpInstead
  | "--" :: word :: _ => .error (if isWord word then .unknownArgument else .unknownCommand)
  | word :: args =>
    if word = helpWord then .error (helpFor args)
    else match form? word with
      | some f => do .ok (f.build (← f.grammar.parse args))
      | none =>
        match word.toList with
        | '-' :: c :: cs => .error (frontFlag (c :: cs))
        | _ => .error .unknownCommand

/-- The file that a command reads. -/
def file : Command → String
  | .validate file => file
  | .evaluate fixtures _ _ _ => fixtures
  | .backfill fixtures _ => fixtures

end Command
end CatalogRules.CommandLine

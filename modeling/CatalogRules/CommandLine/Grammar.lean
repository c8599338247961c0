/-! # Arguments of commands

A command takes options, flags and at most one operand. An option is written `--name value` or
`--name=value`, a flag `--name`; after `--` all arguments are operands. The value of an option is
settled only when something else follows or the arguments end, so a fault that can be seen at once
is reported before the fault of a value that came earlier. -/

namespace CatalogRules.CommandLine

/-- Why arguments are rejected, or what they ask for in place of a command. -/
inductive Refusal where
  | help
  | version
  | helpInstead
  | missingArgument
  | missingValue
  | surplusValue
  | unknownArgument
  | unknownCommand
  | conflict
  deriving DecidableEq, Repr

/-- What an option takes. -/
inductive OptionKind where
  | flag
  | path
  | texts
  deriving DecidableEq, Repr

/-- An option or the operand of a command. -/
structure OptionSpec where
  name : String
  kind : OptionKind
  required : Bool
  deriving DecidableEq, Repr

/-- The arguments that a command takes. -/
structure Grammar where
  options : List OptionSpec
  operand : Option OptionSpec
  deriving DecidableEq, Repr

/-- The options that were given with their values, in order; flags have empty values. -/
abbrev Given := List (String × String)

namespace Given

/-- The values of an option. -/
def values (g : Given) (name : String) : List String :=
  (g.filter (·.1 = name)).map (·.2)

/-- The option was given. -/
def has (g : Given) (name : String) : Bool := g.any (·.1 == name)

end Given

/-- What has been read: the settled options, and an option whose value is awaited or not settled
yet. -/
structure Progress where
  given : Given
  pending : Option (OptionSpec × Option String)
  operandRead : Bool

namespace Progress

/-- Nothing has been read. -/
def start : Progress := ⟨[], none, false⟩

/-- Takes an option with its value. Only lists of texts may be given again; a path must not be
empty. -/
def accept (p : Progress) (o : OptionSpec) (v : String) : Except Refusal Progress :=
  if o.kind ≠ .texts ∧ p.given.has o.name then .error .conflict
  else if o.kind = .path ∧ v = "" then .error .missingValue
  else .ok { p with given := p.given ++ [(o.name, v)] }

/-- Settles the pending option. -/
def settle (p : Progress) : Except Refusal Progress :=
  match p.pending with
  | none => .ok p
  | some (_, none) => .error .missingValue
  | some (o, some v) => accept { p with pending := none } o v

end Progress

namespace Grammar

/-- The name of the flag that asks for help. -/
def helpName : String := "help"

/-- The letter of the flag that asks for help. -/
def helpLetter : Char := 'h'

/-- A name and the value after an equals sign, if there is one. -/
def splitValue (cs : List Char) : String × Option String :=
  let name := String.ofList (cs.takeWhile (· ≠ '='))
  match cs.dropWhile (· ≠ '=') with
  | [] => (name, none)
  | _ :: v => (name, some (String.ofList v))

/-- Reads an option or a flag after its two dashes. -/
def readLong (g : Grammar) (p : Progress) (cs : List Char) : Except Refusal Progress :=
  let (name, value) := splitValue cs
  if name = helpName then
    match value with
    | some _ => .error .surplusValue
    | none => do
      let _ ← p.settle
      .error .help
  else match g.options.find? (·.name == name), value with
    | none, _ => .error .unknownArgument
    | some o, some v =>
      if o.kind = .flag then .error .surplusValue
      else do (← p.settle).accept o v
    | some o, none => do
      let p ← p.settle
      if o.kind = .flag then p.accept o ""
      else .ok { p with pending := some (o, none) }

/-- Reads letters after a single dash; the only one that is known asks for help. -/
def readLetters (p : Progress) (cs : List Char) : Except Refusal Progress :=
  if cs.head? = some helpLetter then do
    let _ ← p.settle
    .error .help
  else .error .unknownArgument

/-- Reads an argument that is neither an option nor a flag. -/
def readOperand (g : Grammar) (p : Progress) (arg : String) : Except Refusal Progress :=
  match g.operand with
  | some o =>
    if p.operandRead then .error .unknownArgument
    else do
      let p ← p.settle
      .ok { p with pending := some (o, some arg), operandRead := true }
  | none => .error .unknownArgument

/-- Reads an argument; one without dashes is the value of an option that awaits one. -/
def readArgument (g : Grammar) (p : Progress) (arg : String) : Except Refusal Progress :=
  match arg.toList with
  | '-' :: '-' :: cs => g.readLong p cs
  | '-' :: c :: cs => readLetters p (c :: cs)
  | _ =>
    match p.pending with
    | some (o, none) => .ok { p with pending := some (o, some arg) }
    | _ => g.readOperand p arg

/-- Reads some arguments. -/
def readAll (g : Grammar) : Progress → List String → Except Refusal Progress
  | p, [] => .ok p
  | p, "--" :: args => args.foldlM g.readOperand p
  | p, arg :: args => do readAll g (← g.readArgument p arg) args

/-- The options in the arguments of a command; the required ones must be there. -/
def parse (g : Grammar) (args : List String) : Except Refusal Given := do
  let p ← (← g.readAll .start args).settle
  if (g.options ++ g.operand.toList).all fun o => !o.required || p.given.has o.name then
    .ok p.given
  else .error .missingArgument

end Grammar
end CatalogRules.CommandLine

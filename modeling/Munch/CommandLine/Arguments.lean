import Munch.CommandLine.Choice
import Munch.Compile

/-!
# Arguments of the command line

Arguments are first told apart: options with their values, switches, and positional
arguments.  Every command says which options and switches it takes and then looks
for its own.

Main results:

- Definition {lit}`Arguments.sort`: options, switches and positional arguments apart.
- Definition {lit}`Command.parse`: the command that the arguments ask for.
-/

namespace Munch

/-- An option with a value. -/
inductive OptionName where
  | output
  | format
  | skip
  | priority
deriving DecidableEq, Repr

/-- An option without a value. -/
inductive Switch where
  | acceptUnknown
  | allowRedundant
deriving DecidableEq, Repr

/-- The name of an option in full. -/
def OptionName.word : OptionName → String
  | output => "output"
  | format => "format"
  | skip => "skip"
  | priority => "priority"

/-- The letter of an option, if it has one. -/
def OptionName.letter? : OptionName → Option Char
  | output => some 'o'
  | format => some 'f'
  | skip => some 's'
  | priority => none

/-- The name of a switch. -/
def Switch.word : Switch → String
  | acceptUnknown => "accept-unknown"
  | allowRedundant => "allow-redundant"

/-- Why arguments are refused. -/
inductive UsageError where
  | noCommand
  | unknownCommand (word : String)
  | unknownOption (argument : String)
  | missingValue (option : OptionName)
  | emptyValue (what : String)
  | unexpectedValue (option : Switch)
  | repeatedOption (word : String)
  | missingArgument (what : String)
  | extraArgument (argument : String)
  | badChoice (error : ChoiceError)
deriving DecidableEq, Repr

/-- The wording of an error. -/
def UsageError.message : UsageError → String
  | noCommand => "A command is expected: compile, tokenize or dot"
  | unknownCommand word => s!"Unknown command: {word}"
  | unknownOption argument => s!"Unexpected option: {argument}"
  | missingValue option => s!"A value is expected for --{option.word}"
  | emptyValue what => s!"The value of {what} is empty"
  | unexpectedValue option => s!"No value is expected for --{option.word}"
  | repeatedOption word => s!"Repeated option: --{word}"
  | missingArgument what => s!"Missing argument: {what}"
  | extraArgument argument => s!"Unexpected argument: {argument}"
  | badChoice error => error.message

/-- What a command does. -/
inductive Action where
  | compile
  | tokenize
  | dot
deriving DecidableEq, Repr

namespace Action

/-- The name of an action. -/
def word : Action → String
  | compile => "compile"
  | tokenize => "tokenize"
  | dot => "dot"

/-- All actions. -/
def all : List Action := [compile, tokenize, dot]

/-- The options that an action takes. -/
def options : Action → List OptionName
  | compile => [.output, .format, .priority]
  | tokenize => [.skip, .format, .priority]
  | dot => [.output, .priority]

/-- The switches that an action takes. -/
def switches : Action → List Switch
  | tokenize => [.acceptUnknown, .allowRedundant]
  | _ => [.allowRedundant]

end Action

/-! ## Telling arguments apart -/

/-- What an argument looks like. -/
inductive Spelling where
  | positional
  /-- Two hyphens and nothing else. -/
  | separator
  /-- Two hyphens, a name and perhaps a value behind a sign of equality. -/
  | named (word : String) (value : Option String)
  /-- A hyphen, a letter and perhaps a value right behind it. -/
  | lettered (letter : Char) (value : Option String)
deriving DecidableEq, Repr

/-- What an argument looks like.  A single hyphen is no option. -/
def spelling (argument : String) : Spelling :=
  match argument.toList with
  | ['-', '-'] => .separator
  | '-' :: '-' :: rest =>
    let name := String.ofList (rest.takeWhile (· ≠ '='))
    match rest.dropWhile (· ≠ '=') with
    | [] => .named name none
    | _ :: value => .named name (some (String.ofList value))
  | ['-', letter] => .lettered letter none
  | '-' :: letter :: '=' :: value => .lettered letter (some (String.ofList value))
  | '-' :: letter :: value => .lettered letter (some (String.ofList value))
  | _ => .positional

/-- Arguments that have been told apart, each kind in its order. -/
structure Arguments where
  positional : List String
  options : List (OptionName × String)
  switches : List Switch
deriving DecidableEq, Repr

namespace Arguments

/-- No arguments. -/
def empty : Arguments := ⟨[], [], []⟩

/-- Adds a positional argument in front. -/
def withPositional (argument : String) (a : Arguments) : Arguments :=
  { a with positional := argument :: a.positional }

/-- Adds an option in front. -/
def withOption (option : OptionName) (value : String) (a : Arguments) : Arguments :=
  { a with options := (option, value) :: a.options }

/-- Adds a switch in front. -/
def withSwitch (switch : Switch) (a : Arguments) : Arguments :=
  { a with switches := switch :: a.switches }

/-- The option that is meant by a name or by a letter. -/
def option? (known : List OptionName) : Spelling → Option (OptionName × Option String)
  | .named word value => (known.find? (·.word = word)).map (·, value)
  | .lettered letter value => (known.find? (·.letter? = some letter)).map (·, value)
  | _ => none

/-- The switch that is meant by a name. -/
def switch? (known : List Switch) : Spelling → Option (Switch × Option String)
  | .named word value => (known.find? (·.word = word)).map (·, value)
  | _ => none

/-- Tells the arguments of an action apart.  The value of an option is part of its
own argument, or else the next one if that does not look like an option. -/
def sort (action : Action) : List String → Except UsageError Arguments
  | [] => .ok empty
  | argument :: rest =>
    match spelling argument with
    | .separator => .ok { empty with positional := rest }
    | .positional => (sort action rest).map (withPositional argument)
    | s =>
      match option? action.options s, switch? action.switches s with
      | some (option, some value), _ => (sort action rest).map (withOption option value)
      | some (option, none), _ =>
        match rest with
        | [] => .error (.missingValue option)
        | value :: rest =>
          if spelling value = .positional then (sort action rest).map (withOption option value)
          else .error (.missingValue option)
      | none, some (switch, none) => (sort action rest).map (withSwitch switch)
      | none, some (switch, some _) => .error (.unexpectedValue switch)
      | none, none => .error (.unknownOption argument)

/-! ## Looking for arguments -/

/-- The value of an option, which may be given once. -/
def value? (a : Arguments) (option : OptionName) : Except UsageError (Option String) :=
  match a.options.filter (·.1 = option) with
  | [] => .ok none
  | [(_, value)] => .ok (some value)
  | _ => .error (.repeatedOption option.word)

/-- Whether a switch is given, which may happen once. -/
def has (a : Arguments) (switch : Switch) : Except UsageError Bool :=
  match a.switches.filter (· = switch) with
  | [] => .ok false
  | [_] => .ok true
  | _ => .error (.repeatedOption switch.word)

/-- A path, which is not empty. -/
def path (what argument : String) : Except UsageError String :=
  if argument.isEmpty then .error (.emptyValue what) else .ok argument

/-- The value of an option that is a path. -/
def path? (a : Arguments) (option : OptionName) : Except UsageError (Option String) := do
  match ← a.value? option with
  | some argument => return some (← path option.word argument)
  | none => return none

/-- The format that is asked for, or else the usual one. -/
def format (a : Arguments) (usual : OutputFormat) : Except UsageError OutputFormat := do
  match ← a.value? .format with
  | some word => (OutputFormat.parse word).mapError .badChoice
  | none => return usual

/-- How automata are to be built. -/
def buildConfig (a : Arguments) : Except UsageError BuildConfig := do
  let mode ← match ← a.value? .priority with
    | some word => (PriorityMode.parse word).mapError .badChoice
    | none => pure .longestMatch
  return ⟨mode, !(← a.has .allowRedundant)⟩

/-- The only positional argument. -/
def onlyPath (a : Arguments) (what : String) : Except UsageError String :=
  match a.positional with
  | [] => .error (.missingArgument what)
  | [argument] => path what argument
  | _ :: extra :: _ => .error (.extraArgument extra)

/-- The first positional argument and perhaps a second one. -/
def oneOrTwoPaths (a : Arguments) (what other : String) :
    Except UsageError (String × Option String) :=
  match a.positional with
  | [] => .error (.missingArgument what)
  | [first] => do return (← path what first, none)
  | [first, second] => do return (← path what first, some (← path other second))
  | _ :: _ :: extra :: _ => .error (.extraArgument extra)

end Arguments

/-! ## Commands -/

/-- A command with all that it needs to know. -/
inductive Command where
  | version
  | compile (source : String) (output : Option String) (format : OutputFormat)
      (config : BuildConfig)
  | tokenize (source : String) (input : Option String) (skip : Option String)
      (acceptUnknown : Bool) (format : OutputFormat) (config : BuildConfig)
  | dot (source : String) (output : Option String) (config : BuildConfig)
deriving DecidableEq, Repr

namespace Command

/-- The command of an action and its arguments. -/
def ofArguments (action : Action) (a : Arguments) : Except UsageError Command := do
  let config ← a.buildConfig
  match action with
  | .compile =>
    return .compile (← a.onlyPath "input") (← a.path? .output) (← a.format .json) config
  | .tokenize =>
    let (source, input) ← a.oneOrTwoPaths "automaton" "input"
    return .tokenize source input (← a.value? .skip) (← a.has .acceptUnknown)
      (← a.format .text) config
  | .dot => return .dot (← a.onlyPath "automaton") (← a.path? .output) config

/-- The command of a list of arguments. -/
def parse : List String → Except UsageError Command
  | [] => .error .noCommand
  | first :: rest =>
    match spelling first with
    | .named "version" none => .ok .version
    | .lettered 'V' _ => .ok .version
    | .positional =>
      match Action.all.find? (·.word = first) with
      | some action => do ofArguments action (← Arguments.sort action rest)
      | none => .error (.unknownCommand first)
    | _ => .error (.unknownOption first)

end Command
end Munch

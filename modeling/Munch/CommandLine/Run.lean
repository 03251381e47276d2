import Munch.Automaton.Dot
import Munch.Automaton.Json
import Munch.CommandLine.Arguments
import Munch.CommandLine.Directory
import Munch.Tokenizer.Report
import Munch.Tokenizer.Reading

/-!
# Running commands

A command reads files and the standard input, and it prints or writes a file.  What
it does depends on its surroundings in no other way, so a command can be run on a
directory that is only a value.

Main results:

- Definition {lit}`CommandLine.run`: a command with any surroundings.
- Definition {lit}`CommandLine.runIn`: the same on a directory, with what is left of it.
-/

namespace Munch
namespace CommandLine

/-- How to reach files and the standard input. -/
structure Surroundings (m : Type → Type) where
  read : String → m (Option ByteArray)
  standardInput : m ByteArray
  /-- Writes a file and says whether that was possible. -/
  write : String → ByteArray → m Bool

/-- Why a command stops early. -/
inductive Failure where
  | unreadable (path : String)
  | unwritable (path : String)
  | notText (path : String)
  | script (error : CompileError)
  | automaton (error : DecodeError)
  | tokenizer (error : TokenizerError)
  | usage (error : UsageError)

/-- The wording of a failure. -/
def Failure.message : Failure → String
  | unreadable path => s!"Cannot read {path}"
  | unwritable path => s!"Cannot write {path}"
  | notText path => s!"{path} is not UTF-8"
  | script error => error.message
  | automaton error => error.message?.getD "The automaton is not JSON"
  | tokenizer error => error.message
  | usage error => error.message

/-- What is left of a run: the text that it printed and why it failed, if it did. -/
structure Outcome where
  output : String
  failure? : Option Failure

namespace Outcome

/-- The exit code: wrong arguments are told apart from other failures. -/
def code (o : Outcome) : Nat :=
  match o.failure? with
  | none => 0
  | some (.usage _) => 2
  | some _ => 1

/-- A run that printed a text. -/
def printed (output : String) : Outcome := ⟨output, none⟩

/-- A run that failed before it printed anything. -/
def failed (failure : Failure) : Outcome := ⟨"", some failure⟩

end Outcome

/-- Whether a path names an automaton rather than a script.  A name that is nothing
but the ending does not. -/
def namesAutomaton (path : String) : Bool :=
  let name := Directory.lastName path
  name.endsWith ".json" && name ≠ ".json"

/-- The automaton of a file, which is a script or an automaton by itself. -/
def automatonOf (path text : String) (config : BuildConfig) : Except Failure Automaton :=
  if namesAutomaton path then (Automaton.ofJson? text).mapError .automaton
  else (compileScript text config).mapError .script

/-- The lines or the value that show tokens.  A value is not shown in part. -/
def tokenReport (a : Automaton) (format : OutputFormat) (tokens : List Token)
    (failure? : Option TokenizerError) : String :=
  match format, failure? with
  | .json, some _ => ""
  | .json, none => (Json.array (tokens.map a.tokenJson)).spreadText ++ "\n"
  | _, _ => String.join (tokens.map fun t => a.tokenLine t ++ "\n")

/-- Cuts an input into tokens and shows them. -/
def tokenize (a : Automaton) (config : TokenizerConfig) (format : OutputFormat)
    (input : ByteArray) : Outcome :=
  match Tokenizer.create a config [.bytes input.data.toList] with
  | .error e => .failed (.tokenizer e)
  | .ok t =>
    let (tokens, failure?) := t.readAll
    ⟨tokenReport a format tokens.toList failure?, failure?.map .tokenizer⟩

/-- An automaton in a format. -/
def automatonText (a : Automaton) : OutputFormat → String
  | .json => a.toJson ++ "\n"
  | .text => a.listing
  | .dot => a.dot "dfa"

variable {m : Type → Type} [Monad m]

/-- Reads the automaton of a file. -/
def load (s : Surroundings m) (path : String) (config : BuildConfig) :
    m (Except Failure Automaton) := do
  match ← s.read path with
  | none => return .error (.unreadable path)
  | some octets =>
    match String.fromUTF8? octets with
    | none => return .error (.notText path)
    | some text => return automatonOf path text config

/-- Reads a file, or the standard input. -/
def openInput (s : Surroundings m) : Option String → m (Except Failure ByteArray)
  | none => do return .ok (← s.standardInput)
  | some path => do return (← s.read path).elim (.error (.unreadable path)) .ok

/-- Prints a text or writes it to a file. -/
def deliver (s : Surroundings m) (path? : Option String) (text : String) : m Outcome :=
  match path? with
  | none => return .printed text
  | some path => do
    if ← s.write path text.toUTF8 then return .printed ""
    else return .failed (.unwritable path)

/-- The name of the program and its version. -/
def versionText : String := "dfalex 0.3.0\n"

/-- Runs a command. -/
def perform (s : Surroundings m) : Command → m Outcome
  | .version => return .printed versionText
  | .compile source output format config => do
    match ← load s source config with
    | .error failure => return .failed failure
    | .ok a => deliver s output (automatonText a format)
  | .tokenize source input skip acceptUnknown format config => do
    match ← load s source config with
    | .error failure => return .failed failure
    | .ok a =>
      match ← openInput s input with
      | .error failure => return .failed failure
      | .ok octets =>
        return tokenize a { (default : TokenizerConfig) with skip, acceptUnknown } format octets
  | .dot source output config => do
    match ← load s source config with
    | .error failure => return .failed failure
    | .ok a => deliver s output (automatonText a .dot)

/-- Runs the command of a list of arguments. -/
def run (s : Surroundings m) (arguments : List String) : m Outcome :=
  match Command.parse arguments with
  | .error e => return .failed (.usage e)
  | .ok command => perform s command

/-! ## Runs on a directory -/

/-- A directory as surroundings, with a given standard input. -/
def within (input : ByteArray) : Surroundings (StateM Directory) where
  read path := do return (← get).read? path
  standardInput := return input
  write path content := do
    match (← get).write? path content with
    | some d =>
      set d
      return true
    | none => return false

/-- Runs a command in a directory and gives the directory as it is then. -/
def runIn (d : Directory) (arguments : List String) (input : ByteArray) : Outcome × Directory :=
  (run (within input) arguments).run d

end CommandLine
end Munch

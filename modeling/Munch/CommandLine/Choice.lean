import Munch.Priority

/-!
# Choices by name

Arguments that name one of several choices.  Upper and lower case make no
difference.

Main results:

- Theorem {lit}`OutputFormat.parse_word`: the names of formats are read back.
- Theorem {lit}`PriorityMode.parse_word`: the names of priorities are read back.
-/

namespace Munch

/-- A word that names none of the choices. -/
inductive ChoiceError where
  | unknownPriority (word : String)
  | unknownFormat (word : String)
deriving DecidableEq, Repr

/-- The wording of an error. -/
def ChoiceError.message : ChoiceError → String
  | unknownPriority word =>
    s!"Unknown priority mode: {word}. Supported: longest, declaration, off"
  | unknownFormat word => s!"Unknown format: {word}. Supported: json, text, dot"

/-- The form of what a command prints. -/
inductive OutputFormat where
  | json
  | text
  | dot
deriving DecidableEq, Repr

namespace OutputFormat

/-- The name of a format. -/
def word : OutputFormat → String
  | json => "json"
  | text => "text"
  | dot => "dot"

/-- The format that a word names. -/
def parse (s : String) : Except ChoiceError OutputFormat :=
  match s.toLower with
  | "json" => .ok json
  | "text" | "txt" => .ok text
  | "dot" | "graphviz" => .ok dot
  | _ => .error (.unknownFormat s)

/-- The names of formats are read back. -/
theorem parse_word (f : OutputFormat) : (parse f.word).toOption = some f := by
  cases f <;> decide +kernel

end OutputFormat

namespace PriorityMode

/-- The name of a priority. -/
def word : PriorityMode → String
  | off => "off"
  | longestMatch => "longest"
  | declarationOrder => "declaration"

/-- The priority that a word names. -/
def parse (s : String) : Except ChoiceError PriorityMode :=
  match s.toLower with
  | "longest" | "longest-match" => .ok longestMatch
  | "declaration" | "declaration-order" => .ok declarationOrder
  | "off" | "none" => .ok off
  | _ => .error (.unknownPriority s)

/-- The names of priorities are read back. -/
theorem parse_word (m : PriorityMode) : (parse m.word).toOption = some m := by
  cases m <;> decide +kernel

end PriorityMode
end Munch

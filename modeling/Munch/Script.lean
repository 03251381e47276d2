import Munch.Pattern.Error
import Munch.Text.Blank
import Munch.TokenName

/-!
# Scripts of definitions

A script defines tokens, one to a line: a name, a colon and a pattern.  A line
that ends in an odd number of backslashes goes on in the next one; blank lines and
lines that start with a number sign say nothing.

Main results:

- Definition {lit}`Script.entries`: the definitions of a script, or the first error.
-/

namespace Munch

/-- A definition before its pattern is read. -/
structure ScriptEntry where
  name : String
  pattern : String
  /-- The number of the line it starts on, if it came from a script. -/
  line : Option Nat
deriving DecidableEq, Repr

/-- Whether the definition only serves other definitions. -/
def ScriptEntry.isAnonymous (e : ScriptEntry) : Bool := isAnonymousName e.name

namespace Script

/-- The lines of a text, without their ends.  A line ends in a line feed with or
without a carriage return before it; the last line may lack its end. -/
def lines : List Char → List (List Char)
  | [] => []
  | '\n' :: s => [] :: lines s
  | '\r' :: '\n' :: s => [] :: lines s
  | c :: s =>
    match lines s with
    | [] => [[c]]
    | line :: rest => (c :: line) :: rest

/-- Whether a line goes on in the next one. -/
def isContinued (line : List Char) : Bool := backslashes line % 2 = 1

/-- A line put together from one or more lines of the script, with the number of
the first. -/
structure LogicalLine where
  number : Nat
  text : List Char
deriving DecidableEq, Repr

/-- Puts continued lines together, counting from `number`.  `held` is a line that
goes on in the next one.  Such a line at the end of the script is kept apart. -/
def joinLines (number : Nat) (held : Option LogicalLine) :
    List (List Char) → List LogicalLine × Option LogicalLine
  | [] => ([], held)
  | line :: rest =>
    let start := held.getD ⟨number, []⟩
    if isContinued line then
      joinLines (number + 1) (some { start with text := start.text ++ line.dropLast }) rest
    else
      let (joined, last) := joinLines (number + 1) none rest
      ({ start with text := start.text ++ line } :: joined, last)

/-- Whether a line, without blanks in front, defines something. -/
def isDefinition (text : List Char) : Bool := !text.isEmpty && text.head? != some '#'

/-- Splits a line at its first colon into a name and a pattern. -/
def splitLine (l : LogicalLine) : Except SyntaxError ScriptEntry :=
  let name := dropBlankEnd (l.text.takeWhile (· != ':'))
  match l.text.dropWhile (· != ':') with
  | ':' :: pattern =>
    if isNameList name then
      .ok ⟨String.ofList name, String.ofList pattern, some l.number⟩
    else .error ⟨.malformedLine, String.ofList l.text, some l.number⟩
  | _ => .error ⟨.malformedLine, String.ofList l.text, some l.number⟩

/-- The definitions of a script in order. -/
def entries (script : String) : Except SyntaxError (List ScriptEntry) := do
  let (joined, last) := joinLines 1 none (lines script.toList)
  let trimmed := joined.map fun l => { l with text := dropBlank l.text }
  let found ← (trimmed.filter fun l => isDefinition l.text).mapM splitLine
  match last with
  | none => return found
  | some l => throw ⟨.incompleteFinalLine, String.ofList l.text, some l.number⟩

end Script
end Munch

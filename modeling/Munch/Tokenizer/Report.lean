import Munch.Json.Writer
import Munch.Tokenizer.Basic

/-!
# Reports of tokens

Tokens as lines of text and as JSON values, with their names.
-/

namespace Munch
namespace Automaton

/-- A text filled up with blanks. -/
def padRight (width : Nat) (s : String) : String :=
  s ++ String.ofList (List.replicate (width - s.length) ' ')

/-- The line of a token: its name, its text and its place. -/
def tokenLine (a : Automaton) (t : Token) : String :=
  let place := s!"{t.position.line}:{t.position.column}"
  padRight 12 (a.nameOf t) ++ " " ++ quotedText t.text ++ " " ++ place

/-- A token as a value. -/
def tokenJson (a : Automaton) (t : Token) : Json :=
  .object
    [(some "column", Json.int t.position.column),
      (some "id", Json.int t.id),
      (some "line", Json.int t.position.line),
      (some "name", Json.string (a.nameOf t)),
      (some "text", Json.string t.text)]

end Automaton
end Munch

import Munch.Automaton.Basic
import Munch.Text.Blank
import Munch.Text.Quoted

/-!
# Tokens

A token is a piece of the input with the place where it starts.  Selectors say
which tokens a reader expects.

Main results:

- Theorem {lit}`Position.advance_append`: places add up.
-/

namespace Munch

/-- A line and a column, both counted from one. -/
structure Position where
  line : Nat
  column : Nat
deriving DecidableEq, Repr

namespace Position

/-- The first character of the input. -/
def first : Position := ⟨1, 1⟩

/-- The place after a character. -/
def after (p : Position) (c : Char) : Position :=
  if c = '\n' then ⟨p.line + 1, 1⟩ else ⟨p.line, p.column + 1⟩

/-- The place after a text. -/
def advance (p : Position) (s : List Char) : Position := s.foldl after p

/-- The place after a text of some length, counted at once: where there are newlines the column
counts the characters behind the last of them, and otherwise it moves by the length. -/
def advanceOver (p : Position) (s : List Char) (length : Nat) : Position :=
  if '\n' ∈ s then ⟨p.line + s.count '\n', (s.reverse.takeWhile (· != '\n')).length + 1⟩
  else ⟨p.line, p.column + length⟩

/-- Places add up. -/
theorem advance_append (p : Position) (s t : List Char) :
    p.advance (s ++ t) = (p.advance s).advance t :=
  List.foldl_append

end Position

/-- A piece of the input; its id is `unknownToken` if no token matches it. -/
structure Token where
  id : Int
  text : String
  position : Position
deriving DecidableEq, Repr

namespace Token

/-- Whether no token matches the piece. -/
def isUnknown (t : Token) : Bool := t.id = unknownToken

/-- The number of characters. -/
def length (t : Token) : Nat := t.text.length

/-- The id, the text and the place of a token. -/
def display (t : Token) : String :=
  s!"({t.id} {quotedText t.text} {t.position.line}:{t.position.column})"

end Token

/-- The name of a token's id; empty if it has none. -/
def Automaton.nameOf (a : Automaton) (t : Token) : String := (a.tokenName? t.id).getD ""

/-- Which tokens are expected. -/
inductive Selector where
  | byName (name : String)
  | byId (id : Int)
  | any
deriving DecidableEq, Repr

namespace Selector

/-- The selector that a word stands for: a low line is any token, everything else a
name. -/
def ofWord (word : String) : Selector := if word = "_" then any else byName word

/-- The selectors that the words of a text stand for. -/
def sequence (pattern : String) : List Selector := (words pattern).map ofWord

/-- The text of a selector. -/
def display : Selector → String
  | byName name => name
  | byId id => s!"#{id}"
  | any => "_"

/-- Whether a token is expected. -/
def matchesToken (s : Selector) (a : Automaton) (t : Token) : Bool :=
  match s with
  | any => true
  | byId id => t.id = id
  | byName name => a.tokenName? t.id = some name

/-- The selector for any token matches every token. -/
@[simp]
theorem matchesToken_any (a : Automaton) (t : Token) : any.matchesToken a t = true :=
  rfl

end Selector
end Munch

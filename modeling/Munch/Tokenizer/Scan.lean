import Munch.Text.Arrival
import Munch.Tokenizer.Token

/-!
# Scanning one token

From the front of the input an automaton is followed as far as it goes.  The last
state on the way that recognizes a token decides which token it is and how long.

Main results:

- Definition {lit}`scan`: the longest match at the front of the input.
-/

namespace Munch

/-- A recognized token with its number of characters. -/
structure Match where
  id : Int
  length : Nat
deriving DecidableEq, Repr

/-- How a scan ends: with the longest match, if any, or because a character that it
needed did not come. -/
inductive ScanResult where
  | matched (best : Option Match)
  | failure (offset : Nat) (message : String)
  | invalid (offset : Nat)
deriving DecidableEq, Repr

/-- The token recognized in a state after some characters, or else the match found
before. -/
def bestAt (a : Automaton) (state offset : Nat) (best : Option Match) : Option Match :=
  match a.accepting state with
  | some id => some ⟨id, offset⟩
  | none => best

/-- Follows an automaton from a state that was reached after `offset` characters. -/
def scanFrom (a : Automaton) (state offset : Nat) (best : Option Match) :
    List CharEvent → ScanResult
  | [] => .matched (bestAt a state offset best)
  | .failure message :: _ => .failure offset message
  | .invalid place :: _ => .invalid place
  | .char c :: rest =>
    match a.step state c with
    | none => .matched (bestAt a state offset best)
    | some next => scanFrom a next (offset + 1) (bestAt a state offset best) rest

/-- The longest match at the front of the input. -/
def scan (a : Automaton) (input : List CharEvent) : ScanResult :=
  scanFrom a a.start 0 none input

end Munch

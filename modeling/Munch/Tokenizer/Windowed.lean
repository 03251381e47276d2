import Munch.Tokenizer.CharSource

/-!
# Tokenizers over a window

A tokenizer that scans a window over decoded characters: it keeps the place where the next scan
starts, and behind each token it gives up the characters in front of that place.  The tokens that
are known are one list, and a cursor tells those that were read from those that come next.

Main results:

- Definition {lit}`WindowTokenizer.fill`: makes sure that there is a token behind the cursor.
- Theorem {lit}`WindowTokenizer.later_scanFrom`: a scan makes reads or decodes nothing.
-/

namespace Munch

/-- A tokenizer somewhere in a window. -/
structure WindowTokenizer where
  automaton : Automaton
  /-- How many read tokens are kept at least. -/
  history : Nat
  /-- Whether pieces that no token matches are read like tokens. -/
  acceptUnknown : Bool
  /-- The token that is dropped. -/
  skipId : Option Int
  /-- The window over the input. -/
  source : CharSource
  /-- The place in it where the next scan starts. -/
  scanPos : Nat
  /-- The line and the column there. -/
  position : Position
  /-- The tokens that are known, in order. -/
  tokens : List Token
  /-- How many of them have been read. -/
  cursor : Nat
  /-- Whether no tokens may be given up. -/
  pinned : Bool

namespace WindowTokenizer

/-- A tokenizer at the start of its input. -/
def create (a : Automaton) (config : TokenizerConfig) (arrivals : List Arrival) :
    Except TokenizerError WindowTokenizer :=
  let start (skipId : Option Int) : WindowTokenizer :=
    { automaton := a
      history := config.history
      acceptUnknown := config.acceptUnknown
      skipId := skipId
      source := CharSource.create config.chunk arrivals
      scanPos := 0
      position := Position.first
      tokens := []
      cursor := 0
      pinned := false }
  match config.skip with
  | none => .ok (start none)
  | some name =>
    match a.tokenId? name with
    | some id => .ok (start (some id))
    | none => .error (.unknownSkipToken name)

/-! ## Scanning -/

/-- Follows an automaton through a window from a state that was reached after `offset` characters
from a place on. -/
def scanFrom (a : Automaton) (pos : Nat) (source : CharSource) (state offset : Nat)
    (best : Option Match) : Except TokenizerError (Option Match) × CharSource :=
  match _hget : source.get (pos + offset) with
  | (.error e, after) => (.error e, after)
  | (.ok none, after) => (.ok (bestAt a state offset best), after)
  | (.ok (some c), after) =>
    match a.step state c with
    | none => (.ok (bestAt a state offset best), after)
    | some next => scanFrom a pos after next (offset + 1) (bestAt a state offset best)
termination_by (source.left, source.limit - (pos + offset))
decreasing_by
  have hlater := source.later_get (pos + offset)
  rw [_hget] at hlater
  exact hlater.lex (CharSource.lt_limit_of_get _hget) (CharSource.Later.refl after)
    (Nat.lt_succ_self _)

/-- A scan makes reads or decodes nothing. -/
theorem later_scanFrom (a : Automaton) (pos : Nat) (source : CharSource) (state offset : Nat)
    (best : Option Match) : source.Later (scanFrom a pos source state offset best).2 := by
  fun_induction scanFrom a pos source state offset best with
  | case1 source state offset best e after hget | case2 source state offset best after hget
  | case3 source state offset best c after hget =>
    have hlater := source.later_get (pos + offset)
    rwa [hget] at hlater
  | case4 source state offset best c after hget next hstep ih =>
    have hlater := source.later_get (pos + offset)
    rw [hget] at hlater
    exact hlater.trans ih

/-- The longest match at the place of a tokenizer. -/
def scan (w : WindowTokenizer) (source : CharSource) :
    Except TokenizerError (Option Match) × CharSource :=
  scanFrom w.automaton w.scanPos source w.automaton.start 0 none

/-- A scan only takes from the source. -/
theorem later_scan (w : WindowTokenizer) (source : CharSource) :
    source.Later (w.scan source).2 :=
  later_scanFrom _ _ _ _ _ _

/-! ## Finding the next token -/

/-- Moves behind a text, and gives up what is in front of the new place. -/
def advance (w : WindowTokenizer) (text : List Char) (length : Nat) : WindowTokenizer :=
  { w with
    position := w.position.advanceOver text length
    scanPos := w.scanPos + length
    source := w.source.release (w.scanPos + length) }

/-- Adds a token behind all others. -/
def push (w : WindowTokenizer) (token : Token) : WindowTokenizer :=
  { w with tokens := w.tokens ++ [token] }

/-- Gives up tokens that need not be kept when there are too many, unless they are pinned. -/
def compact (w : WindowTokenizer) : WindowTokenizer :=
  if w.pinned || w.tokens.length ≤ Tokenizer.capacity w.history then w
  else
    let excess := w.cursor - w.history
    { w with tokens := w.tokens.drop excess, cursor := w.cursor - excess }

/-- The token of a match in a window, and the tokenizer behind it. -/
def cut (w : WindowTokenizer) (source : CharSource) (found : Match) : Token × WindowTokenizer :=
  let text := source.text w.scanPos found.length
  (⟨found.id, text, w.position⟩,
    { w with source := source }.advance text.toList found.length)

/-- Makes sure that there is a token behind the cursor, and says whether there is.  A token without
characters that is dropped would come again for ever; there the input ends. -/
def fill (w : WindowTokenizer) : Except TokenizerError Bool × WindowTokenizer :=
  if w.cursor ≠ w.tokens.length then (.ok true, w)
  else
    match _hget : w.source.get w.scanPos with
    | (.error e, read) => (.error e, { w with source := read })
    | (.ok none, read) => (.ok false, { w with source := read })
    | (.ok (some _), read) =>
      match _hscan : w.scan read with
      | (.error e, scanned) => (.error e, { w with source := scanned })
      | (.ok best, scanned) =>
        let found := best.getD Tokenizer.unmatched
        let next := w.cut scanned found
        if w.skipId = some next.1.id then
          if 0 < found.length then next.2.fill else (.ok false, { w with source := scanned })
        else (.ok true, (next.2.push next.1).compact)
termination_by (w.source.left, w.source.limit - w.scanPos)
decreasing_by
  have hread := w.source.later_get w.scanPos
  have hscanned := w.later_scan read
  rw [_hget] at hread
  rw [_hscan] at hscanned
  change Prod.Lex _ _ ((CharSource.release _ _).left, (CharSource.release _ _).limit - _) _
  rw [CharSource.left_release, CharSource.limit_release]
  exact hread.lex (CharSource.lt_limit_of_get _hget) hscanned (Nat.lt_add_of_pos_right ‹_›)

/-! ## Moving the cursor -/

/-- Moves over the next token. -/
def stepForward (w : WindowTokenizer) : WindowTokenizer :=
  if w.cursor < w.tokens.length then { w with cursor := w.cursor + 1 } else w

/-- Moves back over some tokens. -/
def stepBack (w : WindowTokenizer) (count : Nat) : WindowTokenizer :=
  { w with cursor := w.cursor - count }

/-- Sets the mark that keeps tokens from being given up, or takes it away. -/
def pin (w : WindowTokenizer) (pinned : Bool) : WindowTokenizer := { w with pinned := pinned }

/-- The place of the token behind the cursor, or of the next scan if it is not known. -/
def place (w : WindowTokenizer) : Position :=
  (w.tokens[w.cursor]?.map Token.position).getD w.position

end WindowTokenizer
end Munch

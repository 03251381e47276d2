import Munch.Tokenizer.Basic

/-!
# Reading tokens

The ways to read from a tokenizer: one token or a sequence, expected or not, with
steps back over what has been read.  A use of a tokenizer that fails may still move
it.

Main results:

- Theorem {lit}`Reading.run_unread`: unreading succeeds if so many tokens are kept.
- Definition {lit}`PinnedTokenizer.readSequenceIf`: a sequence read with a mark that keeps the
  tokens.
-/

namespace Munch

/-- A use of a tokenizer, which moves it also when it fails. -/
abbrev Reading (α : Type) := ExceptT TokenizerError (StateM Tokenizer) α

namespace Reading

/-- Makes sure that the next token is known, and says whether there is one. -/
def lookAhead (pinned : Bool) : Reading Bool := ExceptT.mk (Tokenizer.lookAhead pinned)

/-- Whether there is a next token. -/
def hasNext : Reading Bool := lookAhead false

/-- The next token, which stays the next one. -/
def peek : Reading (Option Token) := do
  let _ ← lookAhead false
  return (← get).upcoming.head?

/-- Whether the next token is expected. -/
def nextMatches (pinned : Bool) (s : Selector) : Reading Bool := do
  let _ ← lookAhead pinned
  let t ← get
  return t.upcoming.head?.any (s.matchesToken t.automaton)

/-- Reads the next token if it is expected, and fails otherwise. -/
def readMatching (pinned : Bool) (s : Selector) : Reading Token := do
  let _ ← lookAhead pinned
  let t ← get
  match t.upcoming with
  | [] => throw .noMoreTokens
  | token :: _ =>
    if token.isUnknown && !t.acceptUnknown then
      throw (.unknownToken token.text token.position)
    else if !s.matchesToken t.automaton token then
      throw (.unexpectedToken s.display (t.automaton.nameOf token) token.position)
    else
      modify Tokenizer.stepForward
      return token

/-- Reads the next token. -/
def read : Reading Token := readMatching false .any

/-- Reads the next token, which must be expected. -/
def readExpect (s : Selector) : Reading Token := readMatching false s

/-- Reads the next token if it is expected. -/
def readIf (s : Selector) : Reading (Option Token) := do
  if ← nextMatches false s then return some (← readMatching false s) else return none

/-- Reads tokens that must all be expected.  Those before one that is not stay
read. -/
def readSequence (pattern : List Selector) : Reading (List Token) :=
  pattern.mapM (readMatching false)

/-- Steps back over the last token. -/
def putBack : Reading Unit := modify fun t => t.stepBack 1

/-- Reads tokens if all are expected, and otherwise none. -/
def readSequenceIf : List Selector → Reading (Option (List Token))
  | [] => return some []
  | s :: rest => do
    if ← nextMatches true s then
      let token ← readMatching true s
      let others ← tryCatch (readSequenceIf rest) fun e => do
        putBack
        throw e
      match others with
      | some tokens => return some (token :: tokens)
      | none =>
        putBack
        return none
    else return none

/-- Steps back over some tokens, as long as they are kept. -/
def unread (count : Nat) : Reading Unit := do
  let t ← get
  if t.past.length < count then throw (.tokenUnavailable count t.past.length)
  else set (t.stepBack count)

/-- Unreading succeeds if so many tokens are kept. -/
theorem run_unread (count : Nat) (t : Tokenizer) (h : count ≤ t.past.length) :
    (unread count).run.run t = (.ok (), t.stepBack count) := by
  change ((if t.past.length < count then throw (.tokenUnavailable count t.past.length)
    else set (t.stepBack count) : Reading Unit)).run.run t = _
  rw [if_neg (Nat.not_lt.mpr h)]
  rfl

end Reading

namespace Tokenizer

/-- The place of the next token, or of the input to be scanned if it is not known. -/
def place (t : Tokenizer) : Position :=
  (t.upcoming.head?.map Token.position).getD t.position

/-- The next item of a walk over all tokens; there is none at the end.  A piece that
no token matches is passed over even if it may not be read. -/
def next (t : Tokenizer) : Option (Except TokenizerError Token) × Tokenizer :=
  match t.lookAhead false with
  | (.error e, t) => (some (.error e), t)
  | (.ok false, t) => (none, t)
  | (.ok true, t) =>
    match Reading.read.run.run t with
    | (.error (.unknownToken text p), t) =>
      (some (.error (.unknownToken text p)), t.stepForward)
    | (result, t) => (some result, t)

/-- Reads the next token unless there is none. -/
def readNext : Reading (Option Token) := do
  if ← Reading.hasNext then return some (← Reading.read) else return none

/-- Reads some number of tokens after those read before, or fewer if it must stop.
Gives all of them, and the error if there was one. -/
def readUpTo (before : Array Token) : Nat → Tokenizer → Array Token × Option TokenizerError
  | 0, _ => (before, none)
  | count + 1, t =>
    match readNext.run.run t with
    | (.error e, _) => (before, some e)
    | (.ok none, _) => (before, none)
    | (.ok (some token), t) => readUpTo (before.push token) count t

/-- Reads all tokens up to the end or to an error.  Each takes a character at least,
or is one of those that are known already. -/
def readAll (t : Tokenizer) : Array Token × Option TokenizerError :=
  readUpTo #[] (t.upcoming.length + t.input.length + 1) t

end Tokenizer

/-! ## Tokens that are pinned -/

/-- A tokenizer with the mark that keeps it from giving up tokens. -/
structure PinnedTokenizer where
  tokenizer : Tokenizer
  pinned : Bool

namespace PinnedTokenizer

/-- Uses a tokenizer under its mark, which stays as it is. -/
def use {α : Type} (p : PinnedTokenizer) (x : Bool → Reading α) :
    Except TokenizerError α × PinnedTokenizer :=
  ((x p.pinned).run.run p.tokenizer).map id fun t => { p with tokenizer := t }

/-- Moves back over some tokens. -/
def stepBack (p : PinnedTokenizer) (count : Nat) : PinnedTokenizer :=
  { p with tokenizer := p.tokenizer.stepBack count }

/-- Reads the rest of a sequence behind the tokens that were found, and moves back over all of
these if it is not there or cannot be read. -/
def collect (found : List Token) (p : PinnedTokenizer) :
    List Selector → Except TokenizerError (Option (List Token)) × PinnedTokenizer
  | [] => (.ok (some found), p)
  | s :: rest =>
    match p.use fun pinned => Reading.nextMatches pinned s with
    | (.error e, p) => (.error e, p.stepBack found.length)
    | (.ok false, p) => (.ok none, p.stepBack found.length)
    | (.ok true, p) =>
      match p.use fun pinned => Reading.readMatching pinned s with
      | (.error e, p) => (.error e, p.stepBack found.length)
      | (.ok token, p) => collect (found ++ [token]) p rest

/-- Reads tokens if all are expected, and otherwise none; as long as it takes they are pinned. -/
def readSequenceIf (p : PinnedTokenizer) (pattern : List Selector) :
    Except TokenizerError (Option (List Token)) × PinnedTokenizer :=
  (collect [] { p with pinned := true } pattern).map id fun p => { p with pinned := false }

end PinnedTokenizer
end Munch

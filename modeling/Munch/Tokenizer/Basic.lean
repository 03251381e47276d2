import Munch.Tokenizer.Scan

/-!
# Tokenizers

A tokenizer cuts its input into tokens as they are asked for.  Tokens that have
been read are kept for a while, so that a reader can step back over them.

Main results:

- Theorem {lit}`Tokenizer.tokens_stepBack`: stepping back keeps the tokens and their
  order.
- Theorem {lit}`Tokenizer.length_past_stepBack`: it moves over as many tokens as
  asked for.
-/

namespace Munch

/-- How a tokenizer reads. -/
structure TokenizerConfig where
  /-- The name of a token that is dropped, for example blanks. -/
  skip : Option String
  /-- How many read tokens are kept at least. -/
  history : Nat
  /-- Whether pieces that no token matches are read like tokens. -/
  acceptUnknown : Bool
  /-- How many bytes the source is asked for at a time. -/
  chunk : Nat
deriving DecidableEq, Repr

instance : Inhabited TokenizerConfig := ⟨⟨none, 32, false, 4096⟩⟩

/-- Why a tokenizer cannot answer. -/
inductive TokenizerError where
  | noMoreTokens
  | unknownToken (text : String) (position : Position)
  | unexpectedToken (expected found : String) (position : Position)
  | tokenUnavailable (requested available : Nat)
  | unknownSkipToken (name : String)
  | invalidUtf8 (offset : Nat)
  | source (message : String)
deriving DecidableEq, Repr

/-- The wording of an error. -/
def TokenizerError.message : TokenizerError → String
  | noMoreTokens => "No more tokens"
  | unknownToken text p => s!"Unknown token '{text}' at line {p.line}, column {p.column}"
  | unexpectedToken expected found p =>
    s!"Unexpected token {found} at line {p.line}, column {p.column}; expected {expected}"
  | tokenUnavailable requested available =>
    s!"Token unavailable: cannot unread {requested}, only {available} retained"
  | unknownSkipToken name => s!"No token named '{name}' to skip"
  | invalidUtf8 offset => s!"Input is not valid UTF-8 near byte {offset}"
  | source message => message

/-- A tokenizer somewhere in its input. -/
structure Tokenizer where
  automaton : Automaton
  /-- How many read tokens are kept at least. -/
  history : Nat
  /-- Whether pieces that no token matches are read like tokens. -/
  acceptUnknown : Bool
  /-- The token that is dropped. -/
  skipId : Option Int
  /-- The input that has not been cut into tokens. -/
  input : List CharEvent
  /-- The place where that input starts. -/
  position : Position
  /-- The tokens that have been read and kept, the latest first. -/
  past : List Token
  /-- The tokens that come next as far as they are known, in order. -/
  upcoming : List Token

namespace Tokenizer

/-- A tokenizer at the start of its input. -/
def create (a : Automaton) (config : TokenizerConfig) (arrivals : List Arrival) :
    Except TokenizerError Tokenizer :=
  let start (skipId : Option Int) : Tokenizer :=
    { automaton := a
      history := config.history
      acceptUnknown := config.acceptUnknown
      skipId := skipId
      input := CharEvent.ofSource (max config.chunk 4) arrivals
      position := Position.first
      past := []
      upcoming := [] }
  match config.skip with
  | none => .ok (start none)
  | some name =>
    match a.tokenId? name with
    | some id => .ok (start (some id))
    | none => .error (.unknownSkipToken name)

/-- A tokenizer for a text that is there as a whole. -/
def ofText (a : Automaton) (config : TokenizerConfig) (text : String) :
    Except TokenizerError Tokenizer :=
  create a config [.bytes text.toUTF8.data.toList]

/-! ## The tokens that are kept -/

/-- The tokens that are known, in order. -/
def tokens (t : Tokenizer) : List Token := t.past.reverse ++ t.upcoming

/-- Moves over the next token. -/
def stepForward (t : Tokenizer) : Tokenizer :=
  match t.upcoming with
  | [] => t
  | token :: rest => { t with past := token :: t.past, upcoming := rest }

/-- Moves back over some tokens. -/
def stepBack (t : Tokenizer) (count : Nat) : Tokenizer :=
  { t with
    past := t.past.drop count
    upcoming := (t.past.take count).reverse ++ t.upcoming }

/-- How many tokens are known at most after one is added: twice the number to be
kept, which is counted in 64 bits, but at least one. -/
def capacity (history : Nat) : Nat := max (min (2 * history) 18446744073709551615) 1

/-- Adds a token after all others, when none of those is still to be read.  Old
tokens are given up when there are too many, unless they are pinned. -/
def push (pinned : Bool) (t : Tokenizer) (token : Token) : Tokenizer :=
  let full := decide (capacity t.history < t.past.length + 1)
  { t with
    past := if !pinned && full then t.past.take t.history else t.past
    upcoming := [token] }

/-- Stepping back keeps the tokens and their order. -/
@[simp]
theorem tokens_stepBack (t : Tokenizer) (count : Nat) : (t.stepBack count).tokens = t.tokens := by
  simp only [tokens, stepBack]
  rw [← List.append_assoc, ← List.reverse_append, List.take_append_drop]

/-- Stepping back moves over as many tokens as asked for. -/
theorem length_past_stepBack (t : Tokenizer) (count : Nat) :
    (t.stepBack count).past.length = t.past.length - count := by
  simp [stepBack]

@[simp]
theorem tokens_stepForward (t : Tokenizer) : t.stepForward.tokens = t.tokens := by
  unfold stepForward tokens
  split <;> simp_all

/-! ## Finding the next token -/

/-- A character that starts no token makes a piece of its own. -/
def unmatched : Match := ⟨unknownToken, 1⟩

/-- The token at the front of the input, and the tokenizer behind it. -/
def cut (t : Tokenizer) (found : Match) : Token × Tokenizer :=
  let chars := (t.input.take found.length).filterMap CharEvent.char?
  (⟨found.id, String.ofList chars, t.position⟩,
    { t with
      input := t.input.drop found.length
      position := t.position.advance chars })

/-- A token takes its characters from the input. -/
@[simp]
theorem input_cut (t : Tokenizer) (found : Match) :
    (t.cut found).2.input = t.input.drop found.length :=
  rfl

/-- Makes sure that the next token is known, and says whether there is one.  A token
without characters that is dropped would come again for ever; there the input
ends. -/
def lookAhead (pinned : Bool) (t : Tokenizer) : Except TokenizerError Bool × Tokenizer :=
  if !t.upcoming.isEmpty then (.ok true, t)
  else
    match _hinput : t.input with
    | [] => (.ok false, t)
    | .failure message :: rest => (.error (.source message), { t with input := rest })
    | .invalid offset :: _ => (.error (.invalidUtf8 offset), t)
    | .char _ :: _ =>
      match scan t.automaton t.input with
      | .failure offset message =>
        (.error (.source message), { t with input := t.input.eraseIdx offset })
      | .invalid offset => (.error (.invalidUtf8 offset), t)
      | .matched best =>
        let found := best.getD unmatched
        let next := t.cut found
        if t.skipId = some next.1.id then
          if 0 < found.length then lookAhead pinned next.2 else (.ok false, t)
        else (.ok true, next.2.push pinned next.1)
termination_by t.input.length
decreasing_by
  have hfound : 0 < (best.getD unmatched).length := by assumption
  simp only [input_cut, List.length_drop, _hinput, List.length_cons]
  omega

end Tokenizer
end Munch

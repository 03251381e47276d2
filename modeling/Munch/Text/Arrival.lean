import Munch.Text.Utf8

/-!
# Characters from a source of bytes

Bytes arrive in pieces that may be cut anywhere, also within a character, and a
piece may fail to arrive.  What matters to a tokenizer is the order in which
characters and failures come.

Main results:

- Definition {lit}`CharEvent.ofSource`: what arrives from a source that is asked for a
  buffer of bytes each time.
-/

namespace Munch

/-- The outcome of asking a source for bytes.  An empty piece ends the input. -/
inductive Arrival where
  | bytes (octets : List UInt8)
  | interrupted
  | failure (message : String)
deriving DecidableEq, Repr

/-- What comes next in the input: a character, a failure after which it goes on, or
a place from which it is not UTF-8. -/
inductive CharEvent where
  | char (c : Char)
  | failure (message : String)
  | invalid (offset : Nat)
deriving DecidableEq, Repr

namespace Arrival

/-- Cuts octets into pieces of some positive length. -/
def pieces (size : Nat) : List UInt8 → List (List UInt8)
  | [] => []
  | b :: bs => (b :: bs.take (size - 1)) :: pieces size (bs.drop (size - 1))
termination_by bs => bs.length
decreasing_by
  simp only [List.length_drop, List.length_cons]
  omega

/-- Cuts an arrival so that no piece is larger than a buffer. -/
def split (size : Nat) : Arrival → List Arrival
  | bytes [] => [bytes []]
  | bytes octets => (pieces size octets).map bytes
  | other => [other]

end Arrival

namespace CharEvent

/-- The end of the input: nothing more, unless a character is incomplete. -/
def atEnd (d : Utf8.Decoder) : List CharEvent := if d.owed = 0 then [] else [invalid d.start]

/-- What arrives, from a decoder on.  The characters of a piece come before
whatever arrives next; of a piece with a wrong octet only the offset is known. -/
def ofArrivals (d : Utf8.Decoder) : List Arrival → List CharEvent
  | [] => atEnd d
  | .interrupted :: rest => ofArrivals d rest
  | .failure message :: rest => failure message :: ofArrivals d rest
  | .bytes octets :: rest =>
    if octets.isEmpty then atEnd d
    else
      match Utf8.feed [] d octets with
      | .error offset => [invalid offset]
      | .ok (chars, d) => chars.map char ++ ofArrivals d rest

/-- What arrives from a source that is asked for a buffer of bytes each time. -/
def ofSource (buffer : Nat) (arrivals : List Arrival) : List CharEvent :=
  ofArrivals (.between 0) (arrivals.flatMap (Arrival.split buffer))

/-- The character of an event. -/
def char? : CharEvent → Option Char
  | char c => some c
  | _ => none

end CharEvent
end Munch

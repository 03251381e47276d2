/-!
# Decoding UTF-8

Octets are decoded one after the other.  Between two of them the decoder knows how
many more the current character needs and which values the next one may have, so a
sequence that no character starts with is refused at its first wrong octet.

Main results:

- Definitions {lit}`Utf8.check` and {lit}`Utf8.decodable`: the text of octets, and how
  many of them can be decoded already.
- Theorem {lit}`Utf8.octet_ascii`: an ASCII octet between characters is a character.
-/

namespace Munch
namespace Utf8

/-- A decoder between two octets. -/
structure Decoder where
  /-- The offset of the first octet of the current character. -/
  start : Nat
  /-- How many octets of it have been read. -/
  seen : Nat
  /-- How many more it needs. -/
  owed : Nat
  /-- The least value of the next octet. -/
  low : Nat
  /-- The greatest value of the next octet. -/
  high : Nat
  /-- The bits of the character read so far. -/
  value : Nat
deriving DecidableEq, Repr

/-- A decoder between characters, after some number of octets. -/
def Decoder.between (start : Nat) : Decoder := ⟨start, 0, 0, 0, 0, 0⟩

/-- A decoder after the first octet of a character of several octets. -/
def Decoder.opened (d : Decoder) (owed low high value : Nat) : Decoder :=
  ⟨d.start, 1, owed, low, high, value⟩

/-- Reads the first octet of a character. -/
def firstOctet (d : Decoder) (b : Nat) : Option (Option Char × Decoder) :=
  if b < 0x80 then some (some (Char.ofNat b), .between (d.start + 1))
  else if b < 0xc2 then none
  else if b < 0xe0 then some (none, d.opened 1 0x80 0xbf (b - 0xc0))
  else if b = 0xe0 then some (none, d.opened 2 0xa0 0xbf 0)
  else if b = 0xed then some (none, d.opened 2 0x80 0x9f 13)
  else if b < 0xf0 then some (none, d.opened 2 0x80 0xbf (b - 0xe0))
  else if b = 0xf0 then some (none, d.opened 3 0x90 0xbf 0)
  else if b < 0xf4 then some (none, d.opened 3 0x80 0xbf (b - 0xf0))
  else if b = 0xf4 then some (none, d.opened 3 0x80 0x8f 4)
  else none

/-- Reads a later octet of a character. -/
def laterOctet (d : Decoder) (b : Nat) : Option (Option Char × Decoder) :=
  if d.low ≤ b ∧ b ≤ d.high then
    let value := d.value * 64 + (b - 0x80)
    if d.owed = 1 then some (some (Char.ofNat value), .between (d.start + d.seen + 1))
    else some (none, ⟨d.start, d.seen + 1, d.owed - 1, 0x80, 0xbf, value⟩)
  else none

/-- Reads one octet, which may complete a character.  It is refused if no character
has the octets read so far at its beginning. -/
def octet (d : Decoder) (b : UInt8) : Option (Option Char × Decoder) :=
  if d.owed = 0 then firstOctet d b.toNat else laterOctet d b.toNat

/-- Reads some octets and gives the characters that they complete, after those that
were completed before, the latest first.  If an octet is refused, the result is the
offset of the first octet of the character that it belongs to. -/
def feed (completed : List Char) (d : Decoder) : List UInt8 → Except Nat (List Char × Decoder)
  | [] => .ok (completed.reverse, d)
  | b :: bs =>
    match octet d b with
    | none => .error d.start
    | some (none, d) => feed completed d bs
    | some (some c, d) => feed (c :: completed) d bs

/-- An ASCII octet between characters is a character. -/
theorem octet_ascii (n : Nat) {b : UInt8} (h : b.toNat < 0x80) :
    octet (.between n) b = some (some (Char.ofNat b.toNat), .between (n + 1)) := by
  simp [octet, firstOctet, Decoder.between, h]

/-! ## Whole octets -/

/-- Why octets are not valid. -/
structure Refusal where
  /-- The length of their longest valid beginning. -/
  validUpTo : Nat
  /-- Whether the next octets begin no character; otherwise they end within one. -/
  wrong : Bool

/-- The text of octets, if they are valid. -/
def check (octets : List UInt8) : Except Refusal (List Char) :=
  match feed [] (.between 0) octets with
  | .error offset => .error ⟨offset, true⟩
  | .ok (s, d) => if d.owed = 0 then .ok s else .error ⟨d.start, false⟩

/-- The length of the octets that can be decoded already, unless the next are wrong. -/
def decodable (octets : List UInt8) : Except Nat Nat :=
  match check octets with
  | .ok _ => .ok octets.length
  | .error refusal => if refusal.wrong then .error refusal.validUpTo else .ok refusal.validUpTo

end Utf8
end Munch

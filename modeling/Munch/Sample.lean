/-!
# Sample texts

Texts drawn from a small alphabet by a generator that gives the same sequence for
the same seed.
-/

namespace Munch

/-- A generator with the characters and the largest length of its texts. -/
structure Sampler where
  state : UInt64
  alphabet : Array Char
  maxLength : Nat
deriving Repr

namespace Sampler

/-- The state when no seed is given.  Zero is replaced by it too, since the
generator would stay at zero. -/
def defaultState : UInt64 := 0x853c49e6748fea9b

/-- The characters of sample texts when none are given. -/
def defaultAlphabet : String := "ab01 .\n"

/-- The largest length of sample texts when none is given. -/
def defaultMaxLength : Nat := 64

/-- A generator for a seed. -/
def ofSeed (seed : Option UInt64) (alphabet : Array Char) (maxLength : Nat) : Sampler :=
  let state := seed.getD 0
  ⟨if state = 0 then defaultState else state, alphabet, maxLength⟩

/-- The next state: three shifts, each combined with the number shifted. -/
def nextState (x : UInt64) : UInt64 :=
  let x := x ^^^ (x <<< 13)
  let x := x ^^^ (x >>> 7)
  x ^^^ (x <<< 17)

/-- A number below a bound that is not zero, and the next state. -/
def below (state : UInt64) (bound : Nat) : Nat × UInt64 :=
  let next := nextState state
  (next.toNat % bound, next)

/-- Some characters of an alphabet, and the next state. -/
def drawChars (alphabet : Array Char) : Nat → UInt64 → List Char × UInt64
  | 0, state => ([], state)
  | count + 1, state =>
    let (i, state) := below state alphabet.size
    let (rest, state) := drawChars alphabet count state
    (alphabet[i]?.toList ++ rest, state)

/-- The next text; it is empty, and nothing is drawn, if there are no
characters. -/
def next (s : Sampler) : List Char × Sampler :=
  if s.alphabet.isEmpty then ([], s)
  else
    let (count, state) := below s.state (s.maxLength + 1)
    let (text, state) := drawChars s.alphabet count state
    (text, { s with state := state })

/-- The next texts. -/
def take : Nat → Sampler → List (List Char)
  | 0, _ => []
  | count + 1, s =>
    let (text, s) := s.next
    text :: take count s

end Sampler
end Munch

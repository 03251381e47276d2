/-!
# Codes

The symbols on the edges of an automaton are integers of three sorts: the code
points of characters, one silent code that consumes no input, and below it the
markers that say which token ends here.  Tokens are numbered from zero in the
order of their definitions.

Main results:

- Theorems {lit}`Code.tokenOf_marker` and {lit}`Code.marker_tokenOf`: a marker
  names the token it was made for.
- Theorem {lit}`Code.isMarker_marker`: every token up to the largest id has a
  marker code.
-/

namespace Munch
namespace Code

/-- The code of an edge that is taken without consuming input. -/
def silent : Int := -1

/-- One past the largest code point. -/
def charLimit : Int := 0x110000

/-- The smallest code. -/
def least : Int := -10000

/-- The code that marks the end of the token `id`. -/
def marker (id : Int) : Int := -2 - id

/-- The token whose end is marked by `code`. -/
def tokenOf (code : Int) : Int := -2 - code

/-- Marker codes lie between the smallest code and the silent one. -/
def isMarker (code : Int) : Bool := decide (least ≤ code ∧ code < silent)

/-- A character as a code. -/
def ofChar (c : Char) : Int := c.toNat

@[simp]
theorem tokenOf_marker (id : Int) : tokenOf (marker id) = id := by
  unfold tokenOf marker
  omega

@[simp]
theorem marker_tokenOf (code : Int) : marker (tokenOf code) = code := by
  unfold tokenOf marker
  omega

end Code

/-- The id of a piece of text that no token matches. -/
def unknownToken : Int := -1

/-- The largest id whose marker is still a code. -/
def maxTokenId : Int := 9998

theorem Code.isMarker_marker {id : Int} (hlow : 0 ≤ id) (hhigh : id ≤ maxTokenId) :
    Code.isMarker (Code.marker id) = true := by
  unfold maxTokenId at hhigh
  refine decide_eq_true ?_
  unfold marker least silent
  omega

end Munch

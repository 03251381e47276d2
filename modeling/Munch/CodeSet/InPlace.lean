import Munch.CodeSet.Basic

/-!
# Changing sets of codes in place

A set can also be changed by looking only at the boundaries around a place: those on both
sides stay, those within a range go or change sides, and the ends of the range become
boundaries where the membership changes there.  Which comparison is strict, and which parity
counts, differs from one operation to the next.

Main results:

- Definition {lit}`CodeSet.replaced`: a range becomes part of a set, or is taken out of it.
- Definition {lit}`CodeSet.toggled`: the codes of a range change sides.
- Definition {lit}`CodeSet.inserted`: one code is added.
- Definition {lit}`CodeSet.addedAll`: the ranges of another set are added.
-/

namespace Munch
namespace CodeSet

/-! ## Adding and removing a range -/

/-- A boundary, if it is made. -/
def boundaryIf (made : Bool) (b : Int) : List Int := if made then [b] else []

/-- The boundaries after a range was added, or removed.  Those within the range and at its
ends go, and an end becomes a boundary where the membership on its outer side is not the one
that the range gets. -/
def replaced (added : Bool) (lower upper : Int) (bs : List Int) : List Int :=
  let below := bs.takeWhile (· < lower)
  let within := (bs.dropWhile (· < lower)).takeWhile (· ≤ upper)
  let above := (bs.dropWhile (· < lower)).dropWhile (· ≤ upper)
  below ++ ((boundaryIf (decide (below.length % 2 = 0) == added) lower ++
    boundaryIf (decide ((below ++ within).length % 2 = 0) == added) upper) ++ above)

/-! ## Toggling a range and adding a code -/

/-- A boundary at the end of a list is taken away if it is there, and put there if not. -/
def toggleEnd (bs : List Int) (b : Int) : List Int :=
  if bs.getLast? = some b then bs.dropLast else bs ++ [b]

/-- A boundary at the front of a list is taken away if it is there, and put there if not. -/
def toggleFront (b : Int) (bs : List Int) : List Int :=
  if bs.head? = some b then bs.tail else b :: bs

/-- The boundaries after members and non-members of a range were exchanged.  Only its two ends
are touched. -/
def toggled (lower upper : Int) (bs : List Int) : List Int :=
  let below := toggleEnd (bs.takeWhile (· ≤ lower)) lower
  let within := (bs.dropWhile (· ≤ lower)).takeWhile (· ≤ upper)
  let above := (bs.dropWhile (· ≤ lower)).dropWhile (· ≤ upper)
  toggleEnd (below ++ within) upper ++ above

/-- The boundaries after a code was added.  A code that is there changes nothing, and otherwise
the ranges that end or start next to it reach over it. -/
def inserted (code : Int) (bs : List Int) : List Int :=
  let below := bs.takeWhile (· ≤ code)
  let above := bs.dropWhile (· ≤ code)
  if below.length % 2 = 1 then bs
  else toggleEnd below code ++ toggleFront (code + 1) above

/-! ## Adding a set -/

/-- The boundaries after the ranges of a set were added one after the other, which is not
needed where there is nothing yet. -/
def addedAll (others bs : List Int) : List Int :=
  if bs.isEmpty then others
  else (pairUp others).foldl (fun bs r => replaced true r.1 r.2 bs) bs

end CodeSet
end Munch

/-!
# Search by halving

In a list in order, a property that holds in front of every place where it holds is looked for in
the middle, and the half that its end does not lie in is left out.  Labels and moves are looked up
in this way.

Main results:

- Definition {lit}`partitionPoint`: the length of the front of a list that has a property.
-/

namespace Munch

variable {α : Type}

/-- Looks for the end of the front of a list that has a property, among `size` places from `base`
on.  The place in the middle says which half is left. -/
def partitionPointFrom (p : α → Bool) (xs : Array α) (base size : Nat) : Nat :=
  if _h : size ≤ 1 then if xs[base]?.any p then base + 1 else base
  else
    let half := size / 2
    let next := if xs[base + half]?.any p then base + half else base
    partitionPointFrom p xs next (size - half)
termination_by size

/-- The length of the front of a list that has a property. -/
def partitionPoint (p : α → Bool) (xs : Array α) : Nat := partitionPointFrom p xs 0 xs.size

end Munch

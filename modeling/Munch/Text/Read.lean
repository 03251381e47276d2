/-!
# Reading from the front of a text

A reader takes some characters from the front of a text and leaves the rest.  That
the rest is shorter is part of what it returns, so that readers which call each
other end.

Main results:

- Theorem {lit}`Read.rest_weaken`: a larger bound changes no rest.
-/

namespace Munch

/-- A value read from the front of a text, with a rest shorter than `bound`. -/
structure Read (α : Type) (bound : Nat) where
  value : α
  rest : List Char
  shorter : rest.length < bound

/-- A character less leaves a shorter text. -/
theorem length_lt_succ {α : Type} (s : List α) : s.length < s.length + 1 :=
  Nat.lt_succ_self _

/-- A character more leaves no shorter text. -/
theorem length_le_succ {α : Type} (s : List α) : s.length ≤ s.length + 1 :=
  Nat.le_succ _

/-- What follows the first character is shorter. -/
theorem length_tail_lt {α : Type} {s : List α} {c : α} (h : s.head? = some c) :
    s.tail.length < s.length := by
  cases s with
  | nil => cases h
  | cons d s => exact length_lt_succ s

namespace Read

variable {α : Type} {m n : Nat}

/-- The same value and rest under a larger bound. -/
def weaken (r : Read α m) (h : m ≤ n) : Read α n :=
  ⟨r.value, r.rest, Nat.lt_of_lt_of_le r.shorter h⟩

@[simp]
theorem rest_weaken (r : Read α m) (h : m ≤ n) : (r.weaken h).rest = r.rest :=
  rfl

end Read
end Munch

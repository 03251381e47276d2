import Munch.Priority

/-!
# Bounds by relaxation

The precedences of states can also be found without trying one limit after the other.  Every
state has a bound, which at first is the token of the start there and larger than every token
elsewhere.  An edge lowers the bound of its target to the larger one of the bound of its
source and the token of the target.  All edges do so in turn, until a whole pass lowers
nothing.

A cycle may lower a bound several times, but never below the token of its state, so that the
sum of what the bounds are above the tokens gets smaller with every pass.

Main results:

- Definition {lit}`Graph.relaxed`: the bounds when nothing can be lowered any more.
- Theorem {lit}`Graph.Lowers.excess_lt`: a pass that changes anything makes the excess
  smaller, so that the passes end.
-/

namespace Munch
namespace Graph

variable {tokens noted noted' noted'' : Array Int} {i j : Nat} {bound : Int}

/-! ## One pass -/

/-- The bound that is noted for a state. -/
def notedAt (noted : Array Int) (i : Nat) : Int := noted[i]?.getD noToken

/-- An edge from a state of some bound lowers the bound of its target. -/
def relaxEdge (g : Graph) (tokens : Array Int) (bound : Int) (noted : Array Int) (e : Edge) :
    Array Int :=
  if g.isFinal e.target then noted
  else
    let lower := max bound (tokenAt tokens e.target)
    if lower < notedAt noted e.target then noted.setIfInBounds e.target lower else noted

/-- The edges of a state lower the bounds of its successors. -/
def relaxState (g : Graph) (tokens noted : Array Int) (i : Nat) : Array Int :=
  (g.edges i).foldl (g.relaxEdge tokens (notedAt noted i)) noted

/-- One pass over the listed states. -/
def relaxPass (g : Graph) (tokens : Array Int) (order : List Nat) (noted : Array Int) :
    Array Int :=
  order.foldl (g.relaxState tokens) noted

/-- How far the bounds of the first `n` states are above the tokens of these states. -/
def excessBelow (tokens noted : Array Int) : Nat → Nat
  | 0 => 0
  | n + 1 => excessBelow tokens noted n + (notedAt noted n - tokenAt tokens n).toNat

/-- How far the bounds are above the tokens of their states. -/
def excess (tokens noted : Array Int) : Nat := excessBelow tokens noted noted.size

/-! ## What lowering bounds keeps -/

/-- Bounds of which some are lower, but none is below the token of its state because of
that. -/
structure Lowers (tokens noted noted' : Array Int) : Prop where
  size_eq : noted'.size = noted.size
  lower : ∀ i, notedAt noted' i = notedAt noted i ∨
    tokenAt tokens i ≤ notedAt noted' i ∧ notedAt noted' i < notedAt noted i

/-- Bounds that are noted alike for all states are the same. -/
theorem eq_of_notedAt_eq (hsize : noted'.size = noted.size)
    (hnoted : ∀ i, notedAt noted' i = notedAt noted i) : noted' = noted := by
  refine Array.ext hsize fun i hi hi' => ?_
  have hvalue := hnoted i
  rwa [notedAt, notedAt, Array.getElem?_eq_getElem hi, Array.getElem?_eq_getElem hi'] at hvalue

/-- Nothing is noted for states that there are not. -/
theorem notedAt_of_size_le (hi : noted.size ≤ i) : notedAt noted i = noToken := by
  rw [notedAt, Array.getElem?_eq_none hi]
  rfl

/-- A bound that was just noted. -/
theorem notedAt_setIfInBounds_self (hi : i < noted.size) :
    notedAt (noted.setIfInBounds i bound) i = bound := by
  rw [notedAt, Array.getElem?_setIfInBounds_self_of_lt hi]
  rfl

/-- Noting a bound leaves those of other states. -/
theorem notedAt_setIfInBounds_ne (hij : i ≠ j) :
    notedAt (noted.setIfInBounds i bound) j = notedAt noted j := by
  rw [notedAt, Array.getElem?_setIfInBounds_ne hij, notedAt]

namespace Lowers

/-- What is left as it is is not lowered below the tokens. -/
theorem refl (tokens noted : Array Int) : Lowers tokens noted noted where
  size_eq := rfl
  lower _ := Or.inl rfl

/-- No bound is raised. -/
theorem le (hlowers : Lowers tokens noted noted') (i : Nat) :
    notedAt noted' i ≤ notedAt noted i := by
  rcases hlowers.lower i with heq | ⟨-, hlt⟩
  · exact Int.le_of_eq heq
  · exact Int.le_of_lt hlt

/-- What is lowered twice is lowered. -/
theorem trans (hfirst : Lowers tokens noted noted') (hsecond : Lowers tokens noted' noted'') :
    Lowers tokens noted noted'' where
  size_eq := hsecond.size_eq.trans hfirst.size_eq
  lower i := by
    rcases hsecond.lower i with heq | ⟨htoken, hlt⟩
    · rw [heq]
      exact hfirst.lower i
    · exact Or.inr ⟨htoken, Int.lt_of_lt_of_le hlt (hfirst.le i)⟩

/-- Steps that lower bounds do so one after the other. -/
theorem foldl {α : Type} {f : Array Int → α → Array Int}
    (hf : ∀ noted x, Lowers tokens noted (f noted x)) (xs : List α) (noted : Array Int) :
    Lowers tokens noted (xs.foldl f noted) := by
  induction xs generalizing noted with
  | nil => exact refl tokens noted
  | cons x xs ih => exact (hf noted x).trans (ih (f noted x))

/-- No state is further above its token than before. -/
theorem excessBelow_le (hlowers : Lowers tokens noted noted') (n : Nat) :
    excessBelow tokens noted' n ≤ excessBelow tokens noted n := by
  induction n with
  | zero => exact Nat.le_refl 0
  | succ n ih =>
    exact Nat.add_le_add ih (Int.toNat_le_toNat (Int.sub_le_sub_right (hlowers.le n) _))

/-- A state whose bound has changed makes the difference. -/
theorem excessBelow_lt (hlowers : Lowers tokens noted noted')
    (hi : notedAt noted' i ≠ notedAt noted i) {n : Nat} (hn : i < n) :
    excessBelow tokens noted' n < excessBelow tokens noted n := by
  induction n with
  | zero => exact absurd hn (Nat.not_lt_zero i)
  | succ n ih =>
    rcases Nat.lt_succ_iff_lt_or_eq.mp hn with hbefore | rfl
    · exact Nat.add_lt_add_of_lt_of_le (ih hbefore)
        (Int.toNat_le_toNat (Int.sub_le_sub_right (hlowers.le n) _))
    · obtain ⟨htoken, hlt⟩ := (hlowers.lower i).resolve_left hi
      refine Nat.add_lt_add_of_le_of_lt (hlowers.excessBelow_le i) ?_
      omega

/-- Bounds that have changed are less above the tokens in all. -/
theorem excess_lt (hlowers : Lowers tokens noted noted') (hne : noted' ≠ noted) :
    excess tokens noted' < excess tokens noted := by
  obtain ⟨i, hi⟩ : ∃ i, notedAt noted' i ≠ notedAt noted i :=
    Classical.byContradiction fun hnone =>
      hne (eq_of_notedAt_eq hlowers.size_eq fun i =>
        Classical.not_not.mp (not_exists.mp hnone i))
  have hmem : i < noted.size := by
    refine Nat.lt_of_not_le fun hout => hi ?_
    have hout' : noted'.size ≤ i := hlowers.size_eq ▸ hout
    exact (notedAt_of_size_le hout').trans (notedAt_of_size_le hout).symm
  rw [excess, excess, hlowers.size_eq]
  exact hlowers.excessBelow_lt hi hmem

end Lowers

/-- An edge only lowers bounds. -/
theorem lowers_relaxEdge (g : Graph) (tokens : Array Int) (bound : Int) (noted : Array Int)
    (e : Edge) : Lowers tokens noted (g.relaxEdge tokens bound noted e) := by
  unfold relaxEdge
  split
  · exact Lowers.refl tokens noted
  · dsimp only
    split
    · rename_i hlower
      refine ⟨Array.size_setIfInBounds, fun i => ?_⟩
      by_cases hi : e.target = i
      · subst hi
        by_cases hlt : e.target < noted.size
        · rw [notedAt_setIfInBounds_self hlt]
          exact Or.inr ⟨Int.le_max_right _ _, hlower⟩
        · rw [Array.setIfInBounds_eq_of_size_le (Nat.not_lt.mp hlt)]
          exact Or.inl rfl
      · exact Or.inl (notedAt_setIfInBounds_ne hi)
    · exact Lowers.refl tokens noted

/-- The edges of a state only lower bounds. -/
theorem lowers_relaxState (g : Graph) (tokens noted : Array Int) (i : Nat) :
    Lowers tokens noted (g.relaxState tokens noted i) :=
  Lowers.foldl (g.lowers_relaxEdge tokens (notedAt noted i)) (g.edges i) noted

/-- A pass only lowers bounds. -/
theorem lowers_relaxPass (g : Graph) (tokens : Array Int) (order : List Nat) (noted : Array Int) :
    Lowers tokens noted (g.relaxPass tokens order noted) :=
  Lowers.foldl (g.lowers_relaxState tokens) order noted

/-! ## Passes until nothing is lowered -/

/-- Passes over the listed states until one of them lowers nothing. -/
def settle (g : Graph) (tokens : Array Int) (order : List Nat) (noted : Array Int) : Array Int :=
  let next := g.relaxPass tokens order noted
  if next = noted then noted else settle g tokens order next
termination_by excess tokens noted
decreasing_by exact (g.lowers_relaxPass tokens order noted).excess_lt ‹_›

/-- The bounds before the first pass. -/
def firstBounds (g : Graph) (tokens : Array Int) (start : Nat) : Array Int :=
  (Array.replicate g.size noToken).setIfInBounds start (tokenAt tokens start)

/-- The bounds when nothing can be lowered any more. -/
def relaxed (g : Graph) (tokens : Array Int) (start : Nat) : Array Int :=
  g.settle tokens (g.topologicalOrder start) (g.firstBounds tokens start)

end Graph
end Munch

import Munch.Graph.Search

/-!
# Topological order

The states that can be reached from a root, each before the targets of its
edges, as far as the graph has no cycles.  An edge that closes a cycle is passed
over: the order is that in which a depth-first walk leaves states, reversed.

Main results:

- Definition {lit}`leaveOrder`: the order in which a walk leaves states.
- Definition {lit}`Graph.topologicalOrder`: the topological order from a root.
- Definition {lit}`MarkedWalk.round`: one round of the loop that finds it.
-/

namespace Munch

/-- The work left for the states that a walk has entered and not yet left. -/
def openWork : List (Nat × List Nat) → Nat
  | [] => 0
  | (_, targets) :: rest => targets.length + 1 + openWork rest

/-- Puts the states still open, and those found from them, in front of the states
already left, in the order opposite to that of leaving them.  Each open state
comes with the targets of its edges that have not been looked at. -/
def leaveOrder (next : Nat → List Nat) (fresh : Array Bool) :
    List (Nat × List Nat) → List Nat → List Nat
  | [], left => left
  | (i, []) :: rest, left => leaveOrder next fresh rest (i :: left)
  | (i, j :: targets) :: rest, left =>
    if _h : fresh[j]? = some true then
      leaveOrder next (fresh.setIfInBounds j false) ((j, next j) :: (i, targets) :: rest) left
    else leaveOrder next fresh ((i, targets) :: rest) left
termination_by opened => (fresh.count true, openWork opened)
decreasing_by
  · exact Prod.Lex.right _ (by simp [openWork])
  · exact Prod.Lex.left _ _ (count_fresh_lt _h)
  · exact Prod.Lex.right _ (by simp [openWork])

@[simp]
theorem leaveOrder_nil (next : Nat → List Nat) (fresh : Array Bool) (left : List Nat) :
    leaveOrder next fresh [] left = left := by
  rw [leaveOrder]

namespace Graph

/-- The states that can be reached from a state, each before the targets of its
edges except along edges that close a cycle. -/
def topologicalOrder (g : Graph) (root : Nat) : List Nat :=
  leaveOrder g.successors (g.allFresh.setIfInBounds root false) [(root, g.successors root)] []

end Graph

/-! ## The walk in rounds -/

/-- What a walk has done with a state. -/
inductive Mark where
  | fresh
  | entered
  | left
deriving DecidableEq

/-- A walk with marks: the mark of every state, the open states with the numbers of their
edges that have been looked at, the top of the stack first, and the states left, in order. -/
structure MarkedWalk where
  marks : Array Mark
  opened : List (Nat × Nat)
  left : List Nat

namespace MarkedWalk

/-- One round of the loop looks at the next edge of the state on top of the stack and enters
its target if that is fresh.  A state without a next edge is left. -/
def round (next : Nat → List Nat) (s : MarkedWalk) : Option MarkedWalk :=
  match s.opened with
  | [] => none
  | (i, k) :: rest =>
    match (next i)[k]? with
    | some j =>
      if s.marks[j]? = some .fresh then
        some ⟨s.marks.setIfInBounds j .entered, (j, 0) :: (i, k + 1) :: rest, s.left⟩
      else some ⟨s.marks, (i, k + 1) :: rest, s.left⟩
    | none => some ⟨s.marks.setIfInBounds i .left, rest, s.left ++ [i]⟩

/-- The walk after a number of rounds, unless the stack was empty before. -/
def rounds (next : Nat → List Nat) : Nat → MarkedWalk → Option MarkedWalk
  | 0, s => some s
  | n + 1, s => (s.round next).bind (rounds next n)

end MarkedWalk

/-- The loop before its first round: the root has been entered, and none of its edges looked
at. -/
def Graph.markedWalk (g : Graph) (root : Nat) : MarkedWalk :=
  ⟨(Array.replicate g.size .fresh).setIfInBounds root .entered, [(root, 0)], []⟩

end Munch

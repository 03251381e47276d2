import Munch.Graph.Search

/-!
# Copies of subgraphs

What can be reached from some roots is copied to the end of another graph.  The
copies are numbered in the order in which a search finds the states to be copied.

Main results:

- Theorem {lit}`Graph.size_copyInto`: one copy is made of every state found.
- Theorem {lit}`Graph.state?_copyInto`: the states that were there stay.
-/

namespace Munch
namespace Graph

/-- The new number of every state in a list, for numbers from `base` on; the
states outside the list have none. -/
def numbering (count base : Nat) (order : List Nat) : Array (Option Nat) :=
  (order.zipIdx base).foldl (fun names entry => names.setIfInBounds entry.1 (some entry.2))
    (Array.replicate count none)

/-- The number given to a state; a state without one keeps its own. -/
def renamed (names : Array (Option Nat)) (i : Nat) : Nat := (names[i]?.getD none).getD i

/-- A state whose edges lead to the new numbers of their targets. -/
def renameState (names : Array (Option Nat)) (s : State) : State :=
  { s with edges := s.edges.map fun e => { e with target := renamed names e.target } }

/-- Copies what can be reached from the roots to the end of `dest`, and says which
number the copy of each state has. -/
def copyInto (g : Graph) (roots : List Nat) (dest : Graph) : Graph × (Nat → Nat) :=
  let order := g.reachableFrom roots
  let names := numbering g.size dest.size order
  let copies := order.map fun i => renameState names (g.states[i]?.getD default)
  (⟨dest.states ++ copies.toArray⟩, renamed names)

/-- The subgraph that can be reached from a state, renumbered from zero. -/
def copy (g : Graph) (root : Nat) : Graph := (g.copyInto [root] empty).1

/-- One copy is made of every state found. -/
@[simp]
theorem size_copyInto (g : Graph) (roots : List Nat) (dest : Graph) :
    (g.copyInto roots dest).1.size = dest.size + (g.reachableFrom roots).length := by
  simp [copyInto, size]

/-- The states that were there stay. -/
theorem state?_copyInto (g : Graph) (roots : List Nat) (dest : Graph) {i : Nat}
    (h : i < dest.size) : (g.copyInto roots dest).1.state? i = dest.state? i := by
  have h' : i < dest.states.size := h
  simp [copyInto, state?, Array.getElem?_append, h']

end Graph
end Munch

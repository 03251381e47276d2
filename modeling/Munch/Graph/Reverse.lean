import Munch.Graph.Search

/-!
# Reversed automata

Every edge that can be reached from a root is turned round.  The root becomes the
only final state, and one new state leads silently to the states that were final.

Main results:

- Theorem {lit}`Graph.size_reverse`: reversal adds one state.
-/

namespace Munch
namespace Graph

/-- The edges that reversal makes of one state, as pairs of source and edge: one
from the new state if the state was final, and one for each of its edges. -/
def turned (g : Graph) (i : Nat) : List (Nat × Edge) :=
  (if g.isFinal i then [(g.size, ⟨CodeSet.silent, i⟩)] else []) ++
    (g.edges i).map fun e => (e.target, ⟨e.label, i⟩)

/-- A graph without edges of which only one state is final. -/
def edgeless (size final : Nat) : Graph :=
  (⟨Array.replicate size (State.bare false)⟩ : Graph).setFinal final true

/-- Gives every state the edges listed for it, in the order of the list. -/
def addAll (g : Graph) (listed : List (Nat × Edge)) : Graph :=
  listed.foldr (fun entry r => r.mapEdges entry.1 (entry.2 :: ·)) g

/-- The reversal of what can be reached from the root.  Its start is the state
numbered by the size of the given graph. -/
def reverse (g : Graph) (root : Nat) : Graph :=
  (edgeless (g.size + 1) root).addAll ((g.reachable root).flatMap g.turned)

/-! ## One state after the other -/

/-- Turns the edges of a state round: a silent one from the new state if the state is final,
and then one for each of its edges, each behind those that its source has by then. -/
def turnState (g r : Graph) (i : Nat) : Graph :=
  (g.edges i).foldl (fun r e => r.addEdge e.target e.label i)
    (if g.isFinal i then r.addSilent g.size i else r)

/-- Appends listed edges one after the other. -/
def addEach (g : Graph) (listed : List (Nat × Edge)) : Graph :=
  listed.foldl (fun r entry => r.addEdge entry.1 entry.2.label entry.2.target) g

/-! ## Sizes -/

@[simp]
theorem size_addAll (g : Graph) (listed : List (Nat × Edge)) : (g.addAll listed).size = g.size := by
  induction listed with
  | nil => rfl
  | cons entry listed ih => simpa [addAll] using ih

/-- Reversal adds one state. -/
@[simp]
theorem size_reverse (g : Graph) (root : Nat) : (g.reverse root).size = g.size + 1 := by
  rw [reverse, size_addAll, edgeless, size_setFinal]
  simp [size]

end Graph
end Munch

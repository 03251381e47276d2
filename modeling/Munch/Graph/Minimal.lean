import Munch.Alphabet
import Munch.Graph.Copy
import Munch.Graph.Normal
import Munch.Graph.Reverse
import Munch.Graph.Subset

/-!
# Minimal automata

Reversing an automaton and determinizing it, twice over, leaves the smallest
deterministic automaton of the same language.  The labels are cut into blocks
first, so that subset construction sees symbols, and united again at the end.
-/

namespace Munch
namespace Graph

/-- The labels of the edges that can be reached from a root. -/
def labelsFrom (g : Graph) (root : Nat) : List CodeSet :=
  (g.reachable root).flatMap fun i => (g.edges i).map Edge.label

/-- Replaces an edge by one edge for each piece of its label. -/
def cutEdge (blocks : List CodeSet) (e : Edge) : List Edge :=
  (Alphabet.pieces blocks e.label).map fun piece => ⟨piece, e.target⟩

/-- Cuts the edges that can be reached from a root into blocks of the alphabet. -/
def cutEdges (g : Graph) (root : Nat) : Graph :=
  let blocks := Alphabet.blocks (g.labelsFrom root)
  (g.reachable root).foldl (fun r i => r.mapEdges i (List.flatMap (cutEdge blocks))) g

/-- The automaton of the same language read backwards, made deterministic. -/
def reverseSubsets (g : Graph) (root : Nat) : Graph := (g.reverse root).subsets g.size

/-- The smallest deterministic automaton for the words accepted from `start`.
Its start is state zero. -/
def minimal (g : Graph) (start : Nat) : Graph :=
  (((g.copy start).cutEdges 0).reverseSubsets 0 |>.reverseSubsets 0).normalizeFrom 0

end Graph
end Munch

import Munch.CodeSet.Text
import Munch.Graph.Search

/-!
# Listings of graphs

One line for each state: its name, a star if it is final, and its edges.
-/

namespace Munch
namespace Graph

/-- The name of a state in texts. -/
def stateName (i : Nat) : String := s!"S{i}"

/-- A target with the label of the edge that leads to it. -/
def edgeText (e : Edge) : String := s!" {stateName e.target}({e.label.text})"

/-- The line of one state. -/
def stateLine (g : Graph) (i : Nat) : String :=
  let star := if g.isFinal i then "*" else ""
  stateName i ++ star ++ ":" ++ String.join ((g.edges i).map edgeText) ++ "\n"

/-- The lines of the states that can be reached from a root, by their numbers. -/
def listing (g : Graph) (root : Nat) : String :=
  String.join ((g.reachable root).mergeSort.map g.stateLine)

end Graph
end Munch

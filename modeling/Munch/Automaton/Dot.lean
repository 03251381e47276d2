import Munch.Automaton.Basic

/-!
# Drawings of automata

An automaton as a directed graph in the DOT language.  Edges into final states are
labelled with the names of tokens instead of their markers.
-/

namespace Munch
namespace Automaton

/-- A text within the quotes of a DOT attribute. -/
def dotEscape (s : String) : String :=
  String.ofList (s.toList.flatMap fun c => if c = '\\' ∨ c = '"' then ['\\', c] else [c])

/-- The label of an edge: the names of the tokens that it marks, or its codes. -/
def dotLabel (a : Automaton) (label : CodeSet) : String :=
  if label.first?.any Code.isMarker then
    " ".intercalate (label.toList.filterMap fun code => a.tokenName? (Code.tokenOf code))
  else label.text

/-- A text in double quotes. -/
def inQuotes (s : String) : String := "\"" ++ s ++ "\""

/-- The line of a state. -/
def dotState (s : State) (i : Nat) : String :=
  let name := inQuotes (Graph.stateName i)
  let shape := if s.isFinal then "doublecircle" else "circle"
  s!"  {name} [label={name}, shape={shape}];\n"

/-- The line of an edge. -/
def dotEdge (a : Automaton) (source : Nat) (e : Edge) : String :=
  let tail := inQuotes (Graph.stateName source)
  let head := inQuotes (Graph.stateName e.target)
  let label := inQuotes (dotEscape (a.dotLabel e.label))
  s!"  {tail} -> {head} [label={label}];\n"

/-- The drawing of an automaton under a name. -/
def dot (a : Automaton) (name : String) : String :=
  let states := a.graph.states.toList.zipIdx
  let opening := "digraph " ++ name ++ " \x7b\n  rankdir=LR;\n  node [shape=circle];\n\n"
  let nodes := String.join (states.map fun entry => dotState entry.1 entry.2)
  let edges := String.join (states.flatMap fun entry =>
    entry.1.edges.map (a.dotEdge entry.2))
  opening ++ nodes ++ "\n" ++ edges ++ "\x7d\n"

end Automaton
end Munch

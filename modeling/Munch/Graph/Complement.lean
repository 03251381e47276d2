import Munch.Fragment
import Munch.Graph.Minimal

/-!
# Prefix complements

The prefix complement of a language holds the words that leave it: proper
beginnings of its words that are not words themselves, and such beginnings
followed by one character after which no word of the language can be reached.
-/

namespace Munch
namespace Graph

/-- The characters that no edge of a state takes. -/
def untaken (s : State) : CodeSet :=
  s.edges.foldl (fun rest e => rest.diff e.label) CodeSet.chars

/-- Turns a state of a deterministic automaton round: a final state no longer
accepts, and any other one leads to the sink, without input and on every
character that it has no edge for. -/
def leaveTo (sink : Nat) (s : State) : State :=
  if s.isFinal then { s with isFinal := false }
  else
    let missing := untaken s
    let leaving := if missing.isEmpty then [] else [⟨missing, sink⟩]
    { s with edges := s.edges ++ leaving ++ [⟨CodeSet.silent, sink⟩] }

/-- The deterministic automaton of a part of a graph, with all its exits led to
one new state. -/
def prefixComplement (g : Graph) (part : Ends) : Fragment :=
  let inner := g.fragmentAt part
  let dfa := (inner.graph.setFinal inner.ends.exit true).minimal inner.ends.entry
  let sink := dfa.size
  ⟨(⟨dfa.states.map (leaveTo sink)⟩ : Graph).addState false, ⟨0, sink⟩⟩

end Graph
end Munch

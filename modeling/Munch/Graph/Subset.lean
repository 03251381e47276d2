import Std.Data.HashMap
import Munch.Graph.Search

/-!
# Subset construction

A deterministic automaton whose states are sets of states of another one.  Two
edges count as the same symbol when their labels are equal, so the labels of the
given automaton must be blocks of an alphabet that was cut beforehand.

Main results:

- Definition {lit}`Graph.subsets`: the deterministic automaton of the sets that the
  words reach.
-/

namespace Munch
namespace Graph

/-- The targets of edges by label, for the labels in the order in which they are
first seen. -/
def addMove (label : CodeSet) (target : Nat) :
    List (CodeSet × List Nat) → List (CodeSet × List Nat)
  | [] => [(label, [target])]
  | (l, targets) :: moves =>
    if l = label then (l, target :: targets) :: moves
    else (l, targets) :: addMove label target moves

/-- The edges of a list of states that consume a symbol, grouped by label. -/
def movesFrom (g : Graph) (key : List Nat) : List (CodeSet × List Nat) :=
  let consuming := (key.flatMap g.edges).filter fun e => e.label.first? != some Code.silent
  consuming.foldl (fun moves e => addMove e.label e.target moves) []

/-- A subset construction under way: the automaton so far, the set of states that
each of its states stands for, and the states whose edges are still missing. -/
structure Subsets where
  graph : Graph
  keys : Array (List Nat)
  numbers : Std.HashMap (List Nat) Nat
  pending : List Nat

namespace Subsets

/-- Nothing has been built yet. -/
def initial : Subsets := ⟨Graph.empty, #[], ∅, []⟩

/-- The state that stands for a set of states.  If there is none yet it is added;
it is final if the set holds a final state. -/
def stateFor (nfa : Graph) (t : Subsets) (key : List Nat) : Nat × Subsets :=
  match t.numbers[key]? with
  | some i => (i, t)
  | none =>
    let i := t.keys.size
    (i,
      { graph := t.graph.addState (key.any nfa.isFinal)
        keys := t.keys.push key
        numbers := t.numbers.insert key i
        pending := i :: t.pending })

/-- The edges for some moves, in order, and the construction after looking up
their targets. -/
def follow (nfa : Graph) (t : Subsets) : List (CodeSet × List Nat) → List Edge × Subsets
  | [] => ([], t)
  | (label, targets) :: moves =>
    let (i, t) := t.stateFor nfa (nfa.silentClosure targets)
    let (es, t) := t.follow nfa moves
    (⟨label, i⟩ :: es, t)

/-- Gives edges to the state `i`. -/
def expand (nfa : Graph) (t : Subsets) (i : Nat) : Subsets :=
  let (es, t) := t.follow nfa (nfa.movesFrom (t.keys[i]?.getD []))
  { t with graph := t.graph.setEdges i es }

/-- Expands pending states, the latest first, until none is left.  Every set of
states is expanded once, and there are no more of them than `2 ^ nfa.size`. -/
def run (nfa : Graph) : Nat → Subsets → Subsets
  | 0, t => t
  | steps + 1, t =>
    match t.pending with
    | [] => t
    | i :: rest => run nfa steps (({ t with pending := rest } : Subsets).expand nfa i)

end Subsets

/-- The deterministic automaton of the sets of states that the words reach.  Its
start is state zero, and states are numbered in the order in which they are
found. -/
def subsets (nfa : Graph) (start : Nat) : Graph :=
  ((Subsets.initial.stateFor nfa (nfa.silentClosure [start])).2.run nfa (Nat.pow 2 nfa.size)).graph

end Graph
end Munch

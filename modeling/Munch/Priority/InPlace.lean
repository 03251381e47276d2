import Munch.Priority.Relaxation

/-!
# Resolving priorities in place

The priorities of tokens can be resolved by two passes over the states that change the graph
where it is.  The first one removes edges that are given up, the second one shortens the
labels of edges into final states.  Each of them notes for the edges of a state whether their
targets are final, before it changes any of these edges, and counts what it changes.

Main results:

- Definition {lit}`Graph.editStates`: a pass over states that changes their edges.
- Definition {lit}`Graph.filterInPlace`: relaxation and the two passes.
-/

namespace Munch
namespace Graph

/-- Changes the edges of the listed states one after the other and adds up what is counted
at each. -/
def editStates (change : Graph → Nat → List Edge × Nat) (order : List Nat) (g : Graph) :
    Graph × Nat :=
  order.foldl (fun s i => (s.1.setEdges i (change s.1 i).1, s.2 + (change s.1 i).2)) (g, 0)

/-- Whether the targets of the edges of a state are final. -/
def finalTargets (g : Graph) (i : Nat) : List Bool := (g.edges i).map fun e => g.isFinal e.target

/-- The edges of a state without those that are given up, and the number of these. -/
def dropShadowed (tokens bounds : Array Int) (g : Graph) (i : Nat) : List Edge × Nat :=
  let kept := ((g.edges i).zip (g.finalTargets i)).filter fun p =>
    let token := tokenAt tokens p.1.target
    !(!p.2 && decide (0 ≤ token ∧ token < notedAt bounds i))
  (kept.map Prod.fst, (g.edges i).length - kept.length)

/-- An edge with its label shortened to the first code if its target is final, and whether
that is a change. -/
def shortenBand (e : Edge) (isFinal : Bool) : Edge × Bool :=
  match e.label.first? with
  | some prime =>
    if isFinal && e.label.single? != some prime then
      ({ e with label := CodeSet.single prime }, true)
    else (e, false)
  | none => (e, false)

/-- The edges of a state with labels shortened, and the number of those that were longer. -/
def shortenBands (g : Graph) (i : Nat) : List Edge × Nat :=
  let shortened := (g.edges i).zipWith shortenBand (g.finalTargets i)
  (shortened.map Prod.fst, shortened.countP Prod.snd)

/-- Resolves priorities in declaration order: what is reported, and the graph afterwards. -/
def filterInPlace (g : Graph) (start : Nat) : Except AutomatonFault FilterReport × Graph :=
  let order := g.topologicalOrder start
  match g.endingTokens order with
  | .error fault => (.error fault, g)
  | .ok tokens =>
    let dropped := editStates (dropShadowed tokens (g.relaxed tokens start)) order g
    let shortened := editStates shortenBands order dropped.1
    (.ok ⟨dropped.2, shortened.2⟩, shortened.1)

end Graph
end Munch

import Munch.Graph.Copy

/-!
# Fragments

A fragment is an automaton with one entry and one exit.  Fragments are glued
together inside one graph: what matches a composite expression is found on the
paths between the ends of what was glued.

Main results:

- Theorems {lit}`Graph.size_chain`, {lit}`Graph.size_branch` and
  {lit}`Graph.size_bypass`: how many states gluing adds.
-/

namespace Munch

/-- The first and the last state of a part of a graph. -/
structure Ends where
  entry : Nat
  exit : Nat
deriving DecidableEq, Inhabited, Repr

/-- An automaton with one entry and one exit. -/
structure Fragment where
  graph : Graph
  ends : Ends
deriving DecidableEq, Inhabited

/-- How often an expression may occur. -/
inductive Repetition where
  | zeroOrMore
  | oneOrMore
  | optional
deriving DecidableEq, Repr

/-- Copies a fragment to the end of a graph. -/
def Fragment.spliceInto (f : Fragment) (dest : Graph) : Graph × Ends :=
  let (g, name) := f.graph.copyInto [f.ends.entry, f.ends.exit] dest
  (g, ⟨name f.ends.entry, name f.ends.exit⟩)

namespace Graph

/-- The part of a graph between two ends, renumbered from zero. -/
def fragmentAt (g : Graph) (e : Ends) : Fragment :=
  let (part, ends) := (⟨g, e⟩ : Fragment).spliceInto empty
  ⟨part, ends⟩

/-- Two new states joined by one edge. -/
def addStep (g : Graph) (label : CodeSet) : Graph × Ends :=
  (((g.addState false).addState false).addEdge g.size label (g.size + 1),
    ⟨g.size, g.size + 1⟩)

/-- One part after the other. -/
def chain (g : Graph) (first second : Ends) : Graph × Ends :=
  (g.addSilent first.exit second.entry, ⟨first.entry, second.exit⟩)

/-- Either part, between two new states. -/
def branch (g : Graph) (first second : Ends) : Graph × Ends :=
  let entry := g.size
  let exit := g.size + 1
  let wider := (g.addState false).addState false
  let opened := (wider.addSilent entry first.entry).addSilent entry second.entry
  ((opened.addSilent first.exit exit).addSilent second.exit exit, ⟨entry, exit⟩)

/-- Lets a part be passed over, or gone through again, by edges between its
ends. -/
def bypass (g : Graph) (part : Ends) : Repetition → Graph
  | .zeroOrMore => (g.addSilent part.entry part.exit).addSilent part.exit part.entry
  | .oneOrMore => g.addSilent part.exit part.entry
  | .optional => g.addSilent part.entry part.exit

/-- An exit with edges gets a new state behind it, so that what follows never
starts inside a loop. -/
def freeExit (g : Graph) (part : Ends) : Graph × Ends :=
  if (g.edges part.exit).isEmpty then (g, part)
  else ((g.addState false).addSilent part.exit g.size, ⟨part.entry, g.size⟩)

/-- A part as often as allowed, with an exit that has no edges. -/
def iterate (g : Graph) (part : Ends) (how : Repetition) : Graph × Ends :=
  (g.bypass part how).freeExit part

@[simp]
theorem size_addStep (g : Graph) (label : CodeSet) : (g.addStep label).1.size = g.size + 2 := by
  simp [addStep]

@[simp]
theorem size_chain (g : Graph) (a b : Ends) : (g.chain a b).1.size = g.size := by
  simp [chain]

@[simp]
theorem size_branch (g : Graph) (a b : Ends) : (g.branch a b).1.size = g.size + 2 := by
  simp [branch]

@[simp]
theorem size_bypass (g : Graph) (part : Ends) (how : Repetition) :
    (g.bypass part how).size = g.size := by
  cases how <;> simp [bypass]

end Graph
end Munch

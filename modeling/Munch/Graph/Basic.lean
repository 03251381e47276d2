import Munch.CodeSet.Basic

/-!
# State graphs

An automaton is an array of states; an edge leads from the state that holds it
to a position in the array.  Edges of one state are ordered, labels may overlap,
and a label that holds the silent code can be passed without input, so the same
type serves for nondeterministic and deterministic automata.

Main results:

- Theorems {lit}`Graph.edges_addState` and {lit}`Graph.edges_addEdge`: what the
  two growing operations do to the edges of every state.
- Theorems {lit}`Graph.isFinal_addState` and {lit}`Graph.isFinal_addEdge`: what
  they do to the final flags.
-/

namespace Munch

/-- A transition on any code of its label. -/
structure Edge where
  label : CodeSet
  target : Nat
deriving DecidableEq

/-- A state with its final flag and its outgoing edges in order. -/
structure State where
  isFinal : Bool
  edges : List Edge
deriving DecidableEq, Inhabited

/-- A state without edges. -/
def State.bare (isFinal : Bool) : State := ⟨isFinal, []⟩

/-- States numbered by their position. -/
structure Graph where
  states : Array State
deriving DecidableEq

namespace Graph

/-- The graph without states. -/
def empty : Graph := ⟨#[]⟩

instance : Inhabited Graph := ⟨empty⟩

/-- The number of states. -/
def size (g : Graph) : Nat := g.states.size

/-- The state with a number, if there is one. -/
def state? (g : Graph) (i : Nat) : Option State := g.states[i]?

/-- The outgoing edges of a state; there are none where there is no state. -/
def edges (g : Graph) (i : Nat) : List Edge := (g.states[i]?.map State.edges).getD []

/-- Whether a state is final; no state is final where there is none. -/
def isFinal (g : Graph) (i : Nat) : Bool := (g.states[i]?.map State.isFinal).getD false

/-- The targets of the edges of a state, in order. -/
def successors (g : Graph) (i : Nat) : List Nat := (g.edges i).map Edge.target

/-- Every edge leads to a state. -/
def Closed (g : Graph) : Prop := ∀ i, ∀ e ∈ g.edges i, e.target < g.size

/-! ## Growing and changing -/

/-- Appends a state without edges; its number is the former size. -/
def addState (g : Graph) (isFinal : Bool) : Graph := ⟨g.states.push (State.bare isFinal)⟩

/-- Changes the edges of a state. -/
def mapEdges (g : Graph) (i : Nat) (f : List Edge → List Edge) : Graph :=
  ⟨g.states.modify i fun s => { s with edges := f s.edges }⟩

/-- Replaces the edges of a state. -/
def setEdges (g : Graph) (i : Nat) (es : List Edge) : Graph := g.mapEdges i fun _ => es

/-- Appends an edge to those of a state. -/
def addEdge (g : Graph) (source : Nat) (label : CodeSet) (target : Nat) : Graph :=
  g.mapEdges source (· ++ [⟨label, target⟩])

/-- Appends an edge that is taken without input. -/
def addSilent (g : Graph) (source target : Nat) : Graph :=
  g.addEdge source CodeSet.silent target

/-- Sets the final flag of a state. -/
def setFinal (g : Graph) (i : Nat) (isFinal : Bool) : Graph :=
  ⟨g.states.modify i fun s => { s with isFinal := isFinal }⟩

/-! ## What the changes do to sizes, edges and flags -/

@[simp]
theorem size_addState (g : Graph) (b : Bool) : (g.addState b).size = g.size + 1 := by
  simp [size, addState]

@[simp]
theorem size_mapEdges (g : Graph) (i : Nat) (f : List Edge → List Edge) :
    (g.mapEdges i f).size = g.size := by
  simp [size, mapEdges]

@[simp]
theorem size_setEdges (g : Graph) (i : Nat) (es : List Edge) :
    (g.setEdges i es).size = g.size := by
  simp [setEdges]

@[simp]
theorem size_addEdge (g : Graph) (i : Nat) (label : CodeSet) (j : Nat) :
    (g.addEdge i label j).size = g.size := by
  simp [addEdge]

@[simp]
theorem size_addSilent (g : Graph) (i j : Nat) : (g.addSilent i j).size = g.size := by
  simp [addSilent]

@[simp]
theorem size_setFinal (g : Graph) (i : Nat) (b : Bool) : (g.setFinal i b).size = g.size := by
  simp [size, setFinal]

theorem edges_eq_nil_of_size_le {g : Graph} {i : Nat} (h : g.size ≤ i) : g.edges i = [] := by
  have h' : g.states[i]? = none := Array.getElem?_eq_none h
  simp [edges, h']

/-- A new state has no edges, and the others keep theirs. -/
@[simp]
theorem edges_addState (g : Graph) (b : Bool) (i : Nat) : (g.addState b).edges i = g.edges i := by
  rcases Nat.lt_trichotomy i g.size with h | h | h
  · have h' : i ≠ g.states.size := Nat.ne_of_lt h
    simp [edges, addState, Array.getElem?_push, h']
  · subst h
    simp [edges, addState, State.bare, size]
  · have h' : i ≠ g.states.size := Nat.ne_of_gt h
    simp [edges, addState, Array.getElem?_push, h']

/-- Changing the edges of one state keeps those of the others. -/
theorem edges_mapEdges (g : Graph) (i : Nat) (f : List Edge → List Edge) (j : Nat) :
    (g.mapEdges i f).edges j = if i = j ∧ j < g.size then f (g.edges j) else g.edges j := by
  by_cases hj : j < g.size
  · have hj' : j < g.states.size := hj
    by_cases hij : i = j
    · subst hij
      have hs : g.states[i]? = some g.states[i] := Array.getElem?_eq_getElem hj'
      simp only [edges, mapEdges, Array.getElem?_modify, hs]
      simp [hj]
    · simp [edges, mapEdges, Array.getElem?_modify, hij]
  · have hj' : g.states[j]? = none := Array.getElem?_eq_none (Nat.le_of_not_lt hj)
    simp [edges, mapEdges, Array.getElem?_modify, hj, hj']

/-- A new edge comes last at its source, and the other states keep their edges. -/
theorem edges_addEdge (g : Graph) (i : Nat) (label : CodeSet) (j k : Nat) :
    (g.addEdge i label j).edges k =
      if i = k ∧ k < g.size then g.edges k ++ [⟨label, j⟩] else g.edges k :=
  edges_mapEdges g i _ k

/-- An edge that was not there before is the new one. -/
theorem mem_edges_of_mem_addEdge {g : Graph} {i j k : Nat} {label : CodeSet} {e : Edge}
    (he : e ∈ (g.addEdge i label j).edges k) : e ∈ g.edges k ∨ k = i ∧ e = ⟨label, j⟩ := by
  rw [edges_addEdge] at he
  split at he
  · rename_i hsource
    exact (List.mem_append.mp he).imp_right fun hnew =>
      ⟨hsource.1.symm, List.mem_singleton.mp hnew⟩
  · exact Or.inl he

/-- A new edge takes none of the others away. -/
theorem mem_edges_addEdge_of_mem {g : Graph} {k : Nat} {e : Edge} (he : e ∈ g.edges k) (i : Nat)
    (label : CodeSet) (j : Nat) : e ∈ (g.addEdge i label j).edges k := by
  rw [edges_addEdge]
  split
  · exact List.mem_append_left _ he
  · exact he

/-- A new state has the flag it was made with, and the others keep theirs. -/
theorem isFinal_addState (g : Graph) (b : Bool) (i : Nat) :
    (g.addState b).isFinal i = if i = g.size then b else g.isFinal i := by
  by_cases h : i = g.size
  · subst h
    simp [isFinal, addState, State.bare, size]
  · have h' : i ≠ g.states.size := h
    simp [isFinal, addState, Array.getElem?_push, h, h']

/-- Changing edges keeps every final flag. -/
@[simp]
theorem isFinal_mapEdges (g : Graph) (i : Nat) (f : List Edge → List Edge) (j : Nat) :
    (g.mapEdges i f).isFinal j = g.isFinal j := by
  by_cases hij : i = j
  · subst hij
    cases h : g.states[i]? <;> simp [isFinal, mapEdges, Array.getElem?_modify, h]
  · simp [isFinal, mapEdges, Array.getElem?_modify, hij]

@[simp]
theorem isFinal_addEdge (g : Graph) (i : Nat) (label : CodeSet) (j k : Nat) :
    (g.addEdge i label j).isFinal k = g.isFinal k :=
  isFinal_mapEdges g i _ k

end Graph
end Munch

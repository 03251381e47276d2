import Munch.Graph.Search

/-!
# Normal form of edges

The edges of a state are in normal form when they lead to ever larger states and
carry some code.

Main results:

- Theorem {lit}`target_mem_of_mem_mergeTargets`: merging invents no target.
-/

namespace Munch

/-- Puts an edge in front of a list, into its first edge if that has the same
target. -/
def absorb (e : Edge) : List Edge → List Edge
  | [] => [e]
  | f :: rest =>
    if e.target = f.target then ⟨e.label.union f.label, e.target⟩ :: rest else e :: f :: rest

/-- Unites the labels of neighbouring edges with one target. -/
def mergeTargets (es : List Edge) : List Edge := es.foldr absorb []

/-- Edges in the order of their targets, one for each target, without those that
carry no code. -/
def normalEdges (es : List Edge) : List Edge :=
  mergeTargets ((es.mergeSort fun e f => decide (e.target ≤ f.target)).filter
    fun e => !e.label.isEmpty)

theorem target_mem_of_mem_absorb {e f : Edge} {es : List Edge} (h : f ∈ absorb e es) :
    f.target = e.target ∨ f ∈ es := by
  cases es with
  | nil => simp_all [absorb]
  | cons g rest =>
    rw [absorb] at h
    split at h
    · rcases List.mem_cons.mp h with rfl | h
      · exact Or.inl rfl
      · exact Or.inr (List.mem_cons_of_mem g h)
    · rcases List.mem_cons.mp h with rfl | h
      · exact Or.inl rfl
      · exact Or.inr h

/-- Merging invents no target. -/
theorem target_mem_of_mem_mergeTargets {es : List Edge} {f : Edge} (h : f ∈ mergeTargets es) :
    f.target ∈ es.map Edge.target := by
  induction es with
  | nil => simp [mergeTargets] at h
  | cons e es ih =>
    rcases target_mem_of_mem_absorb h with h | h
    · simp [h]
    · exact List.mem_cons_of_mem _ (ih h)

namespace Graph

/-- Brings the edges of one state into normal form. -/
def normalize (g : Graph) (i : Nat) : Graph := g.mapEdges i normalEdges

/-- Brings the edges of all states that can be reached from a root into normal
form. -/
def normalizeFrom (g : Graph) (root : Nat) : Graph := (g.reachable root).foldl normalize g

end Graph
end Munch

import Munch.Graph.Basic

/-!
# Depth-first search

One loop over a stack of pending states serves every search of the library:
reachability along all edges and along silent edges only.  The order in which it
finds states decides how copies of graphs are numbered.

Main results:

- Definition {lit}`StackSearch.round`: one round of the loop.
- Theorem {lit}`count_fresh_lt`: marking a fresh state leaves fewer fresh states,
  which is why the search ends.
- Theorem {lit}`fresh_of_mem_preorder`: a search finds only states that were
  fresh at its start.
-/

namespace Munch

/-- Marking a fresh state leaves fewer fresh states. -/
theorem count_fresh_lt {fresh : Array Bool} {i : Nat} (h : fresh[i]? = some true) :
    (fresh.setIfInBounds i false).count true < fresh.count true := by
  obtain ⟨hi, hget⟩ := Array.getElem?_eq_some_iff.mp h
  have hpos : 0 < fresh.count true :=
    Array.count_pos_iff.mpr (hget ▸ Array.getElem_mem hi)
  rw [Array.setIfInBounds, dif_pos hi, Array.count_set]
  have hset : (false == true) = false := rfl
  simp only [hget, hset, beq_self_eq_true, if_true, Bool.false_eq_true, if_false]
  omega

/-- What is fresh after a mark was fresh before it. -/
theorem fresh_of_setIfInBounds {fresh : Array Bool} {i j : Nat}
    (h : (fresh.setIfInBounds i false)[j]? = some true) : fresh[j]? = some true := by
  rw [Array.getElem?_setIfInBounds] at h
  split at h
  · split at h <;> simp at h
  · exact h

/-- The states found from a stack of pending ones, in order of discovery.  The
flags say which states have not been found yet; a state is expanded when it is
taken from the stack, so its successors come before anything pending. -/
def preorder (next : Nat → List Nat) (fresh : Array Bool) : List Nat → List Nat
  | [] => []
  | i :: stack =>
    if _h : fresh[i]? = some true then
      i :: preorder next (fresh.setIfInBounds i false) (next i ++ stack)
    else preorder next fresh stack
termination_by stack => (fresh.count true, stack.length)
decreasing_by
  · exact Prod.Lex.left _ _ (count_fresh_lt _h)
  · exact Prod.Lex.right _ (by simp)

/-- A search finds only states that were fresh at its start. -/
theorem fresh_of_mem_preorder {next : Nat → List Nat} {fresh : Array Bool} {stack : List Nat}
    {i : Nat} (h : i ∈ preorder next fresh stack) : fresh[i]? = some true := by
  fun_induction preorder next fresh stack with
  | case1 => simp at h
  | case2 fresh j stack hj ih =>
    rcases List.mem_cons.mp h with rfl | h
    · exact hj
    · exact fresh_of_setIfInBounds (ih h)
  | case3 fresh j stack hj ih => exact ih h

namespace Graph

/-- Every state is yet to be found. -/
def allFresh (g : Graph) : Array Bool := Array.replicate g.size true

/-- The states that can be reached from the roots, in depth-first order. -/
def reachableFrom (g : Graph) (roots : List Nat) : List Nat :=
  preorder g.successors g.allFresh roots

/-- The states that can be reached from one state, in depth-first order. -/
def reachable (g : Graph) (root : Nat) : List Nat := g.reachableFrom [root]

/-- The targets of the edges of a state that can be taken without input. -/
def silentSuccessors (g : Graph) (i : Nat) : List Nat :=
  ((g.edges i).filter fun e => e.label.contains Code.silent).map Edge.target

/-- The states that can be reached from the roots without input, in increasing
order. -/
def silentClosure (g : Graph) (roots : List Nat) : List Nat :=
  (preorder g.silentSuccessors g.allFresh roots).mergeSort

/-- A search finds only states of the graph. -/
theorem lt_size_of_mem_reachableFrom {g : Graph} {roots : List Nat} {i : Nat}
    (h : i ∈ g.reachableFrom roots) : i < g.size := by
  have := fresh_of_mem_preorder h
  obtain ⟨hi, -⟩ := Array.getElem?_eq_some_iff.mp this
  simpa [allFresh] using hi

end Graph

/-! ## The loop in rounds -/

/-- A search with a stack: the states that are fresh, those found, in order, and those
pending, the top of the stack first. -/
structure StackSearch where
  fresh : Array Bool
  found : List Nat
  stack : List Nat

namespace StackSearch

/-- One round of the loop takes the top of the stack.  If it is fresh, it is found, and
those of its successors that are fresh then are pushed, so that the first is on top. -/
def round (next : Nat → List Nat) (s : StackSearch) : Option StackSearch :=
  match s.stack with
  | [] => none
  | i :: stack =>
    if s.fresh[i]? = some true then
      let fresh := s.fresh.setIfInBounds i false
      some ⟨fresh, s.found ++ [i], (next i).filter (fun j => fresh[j]? = some true) ++ stack⟩
    else some { s with stack := stack }

/-- The search after a number of rounds, unless the stack was empty before. -/
def rounds (next : Nat → List Nat) : Nat → StackSearch → Option StackSearch
  | 0, s => some s
  | n + 1, s => (s.round next).bind (rounds next n)

end StackSearch

/-- The loop before its first round: nothing is found, and the roots are on the stack. -/
def Graph.stackSearch (g : Graph) (roots : List Nat) : StackSearch := ⟨g.allFresh, [], roots⟩

end Munch

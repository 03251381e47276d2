import Munch.Graph.Order
import Munch.Proofs.Graph.DepthFirst

/-!
# What a topological order holds

Told by recursion, a walk leaves a state after it has visited the successors of that
state.  The stack of open states does the same, so the topological order is the order in
which the recursion leaves states, reversed.  A state is left once for every time that it
is found, so the order holds what a depth-first search finds.

Main results:

- Theorem {lit}`postorder_perm_depthFirst`: what is left is what is found.
- Theorem {lit}`leaveOrder_cons`: the stack leaves states as the recursion does.
- Theorem {lit}`Graph.topologicalOrder_eq_reverse_postorder`: the order is that of the
  recursion, reversed.
- Theorem {lit}`Graph.mem_topologicalOrder_iff`: the order holds what the root leads to.
-/

namespace Munch

/-- The states that a visit finds, in the order in which it leaves them: each after what a
visit of its successors leaves. -/
def postorder (next : Nat → List Nat) (fresh : Array Bool) : List Nat → List Nat
  | [] => []
  | i :: todo =>
    if _h : fresh[i]? = some true then
      postorder next (fresh.setIfInBounds i false) (next i) ++
        i :: postorder next (freshAfter next (fresh.setIfInBounds i false) (next i)) todo
    else postorder next fresh todo
termination_by todo => (fresh.count true, todo.length)
decreasing_by
  · exact Prod.Lex.left _ _ (count_fresh_lt _h)
  · exact Prod.Lex.left _ _ (Nat.lt_of_le_of_lt count_freshAfter_le (count_fresh_lt _h))
  · exact Prod.Lex.right _ (Nat.lt_succ_self _)

section Leaving

variable {next : Nat → List Nat} {fresh : Array Bool} {i j : Nat} {todo : List Nat}
  {rest : List (Nat × List Nat)} {left : List Nat}

/-- Nothing to do leaves no state. -/
@[simp]
theorem postorder_nil : postorder next fresh [] = [] := by
  rw [postorder]

/-- A fresh state comes after what is newly met from it and before the rest. -/
theorem postorder_cons_of_fresh (h : fresh[i]? = some true) :
    postorder next fresh (i :: todo) =
      postorder next (fresh.setIfInBounds i false) (next i) ++
        i :: postorder next (freshAfter next (fresh.setIfInBounds i false) (next i)) todo := by
  rw [postorder, dif_pos h]

/-- What is left is what is found. -/
theorem postorder_perm_depthFirst (next : Nat → List Nat) (fresh : Array Bool)
    (todo : List Nat) : (postorder next fresh todo).Perm (depthFirst next fresh todo) := by
  fun_induction postorder next fresh todo with
  | case1 => rw [depthFirst_nil]
  | case2 fresh i todo hi ihbelow ihbehind =>
    rw [depthFirst_cons_of_fresh hi]
    exact List.perm_middle.trans ((ihbelow.append ihbehind).cons i)
  | case3 fresh i todo hi ih =>
    rw [depthFirst_cons_of_not_fresh hi]
    exact ih

/-! ## With a stack of open states -/

/-- A state with no successor left is left. -/
theorem leaveOrder_cons_nil :
    leaveOrder next fresh ((i, []) :: rest) left = leaveOrder next fresh rest (i :: left) := by
  rw [leaveOrder]

/-- A fresh successor is entered next. -/
theorem leaveOrder_cons_of_fresh (h : fresh[j]? = some true) :
    leaveOrder next fresh ((i, j :: todo) :: rest) left =
      leaveOrder next (fresh.setIfInBounds j false) ((j, next j) :: (i, todo) :: rest) left := by
  rw [leaveOrder, dif_pos h]

/-- A successor met before is passed over. -/
theorem leaveOrder_cons_of_not_fresh (h : fresh[j]? ≠ some true) :
    leaveOrder next fresh ((i, j :: todo) :: rest) left =
      leaveOrder next fresh ((i, todo) :: rest) left := by
  rw [leaveOrder, dif_neg h]

/-- The stack leaves states as the recursion does: first what a visit of the targets on top
leaves, then the state on top, then the rest. -/
theorem leaveOrder_cons :
    leaveOrder next fresh ((i, todo) :: rest) left =
      leaveOrder next (freshAfter next fresh todo) rest
        (i :: ((postorder next fresh todo).reverse ++ left)) := by
  fun_induction postorder next fresh todo generalizing i rest left with
  | case1 fresh => rw [leaveOrder_cons_nil, freshAfter_nil, List.reverse_nil, List.nil_append]
  | case2 fresh j todo hj ihbelow ihbehind =>
    rw [leaveOrder_cons_of_fresh hj, ihbelow, ihbehind, freshAfter_cons_of_fresh hj]
    simp
  | case3 fresh j todo hj ih =>
    rw [leaveOrder_cons_of_not_fresh hj, ih, freshAfter_cons_of_not_fresh hj]

end Leaving

namespace Graph

variable {g : Graph} {root i : Nat}

/-- The root comes first, and then what a visit of its successors leaves, the last left
first. -/
theorem topologicalOrder_eq_cons :
    g.topologicalOrder root =
      root :: (postorder g.successors (g.allFresh.setIfInBounds root false)
        (g.successors root)).reverse := by
  rw [topologicalOrder, leaveOrder_cons, leaveOrder_nil, List.append_nil]

/-- A topological order is the order in which the recursion leaves states, reversed. -/
theorem topologicalOrder_eq_reverse_postorder (hroot : root < g.size) :
    g.topologicalOrder root = (postorder g.successors g.allFresh [root]).reverse := by
  rw [topologicalOrder_eq_cons, postorder_cons_of_fresh (allFresh_of_lt hroot), postorder_nil,
    List.reverse_append, List.reverse_singleton, List.singleton_append]

/-- The order holds the states that a search finds, each once. -/
theorem topologicalOrder_perm_reachable (hroot : root < g.size) :
    (g.topologicalOrder root).Perm (g.reachable root) := by
  rw [topologicalOrder_eq_reverse_postorder hroot, reachable, reachableFrom_eq_depthFirst]
  exact (List.reverse_perm _).trans (postorder_perm_depthFirst _ _ _)

/-- The order names no state twice. -/
theorem nodup_topologicalOrder (hroot : root < g.size) : (g.topologicalOrder root).Nodup :=
  (topologicalOrder_perm_reachable hroot).nodup_iff.mpr nodup_reachable

/-- In a closed graph the order holds what the root leads to. -/
theorem mem_topologicalOrder_iff (hclosed : g.Closed) :
    i ∈ g.topologicalOrder root ↔ Leads g.successors root i := by
  by_cases hroot : root < g.size
  · rw [(topologicalOrder_perm_reachable hroot).mem_iff, mem_reachable_iff hclosed hroot]
  · -- Where there is no state there are no edges, and the order holds the root alone.
    have hnone : g.successors root = [] := by
      rw [successors, edges_eq_nil_of_size_le (Nat.not_lt.mp hroot), List.map_nil]
    rw [topologicalOrder_eq_cons, hnone, postorder_nil, List.reverse_nil, List.mem_singleton]
    constructor
    · rintro rfl
      exact Relation.ReflTransGen.refl
    · intro hleads
      rcases hleads.cases_head with rfl | ⟨j, hstep, -⟩
      · rfl
      · rw [hnone] at hstep
        cases hstep

end Graph
end Munch

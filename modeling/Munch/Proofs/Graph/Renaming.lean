import Mathlib.Order.Interval.Set.Basic
import Munch.Proofs.Graph.Copy
import Munch.Proofs.Graph.DepthFirst

/-!
# The numbers of a copy

A copy is made by numbering first the states to be copied and then building them, each
edge led to the number of its target.  So it depends on every target having a number by
then, and on the numbers being free in the graph that the copy is put behind.

Main results:

- Theorem {lit}`Graph.copyInto_name_eq_idxOf`: the number of a copy is its place in the
  search.
- Theorem {lit}`Graph.bijOn_copyInto_name`: the copies fill the numbers behind the graph.
- Theorem {lit}`Graph.copyInto_isomorphic`: the copy is the part of the graph that the roots
  lead to, under these numbers, and the graph before it is untouched.
-/

namespace Munch
namespace Graph

variable {g : Graph} (dest : Graph) {roots : List Nat} {i : Nat}

/-- The number of a copy is its place in the search, counted behind the graph before. -/
theorem copyInto_name_eq_idxOf (hi : i ∈ g.reachableFrom roots) :
    (g.copyInto roots dest).2 i = dest.size + (g.reachableFrom roots).idxOf i :=
  copyInto_name_of_getElem? dest (List.getElem?_idxOf hi)

/-- Every state found has been given its number before the states are built. -/
theorem getElem?_numbering_of_mem (hi : i ∈ g.reachableFrom roots) :
    (numbering g.size dest.size (g.reachableFrom roots))[i]? =
      some (some ((g.copyInto roots dest).2 i)) := by
  rw [copyInto_name_eq_idxOf dest hi]
  exact getElem?_numbering dest.size (List.getElem?_idxOf hi)

/-- The copies fill the numbers behind the graph before, without gap or repetition. -/
theorem bijOn_copyInto_name (g : Graph) (roots : List Nat) :
    Set.BijOn (g.copyInto roots dest).2 {i | i ∈ g.reachableFrom roots}
      (Set.Ico dest.size (g.copyInto roots dest).1.size) := by
  refine ⟨fun i hi => ?_, injOn_copyInto_name dest, fun j hj => ?_⟩
  · exact ⟨size_le_copyInto_name dest hi, copyInto_name_lt_size dest hi⟩
  · exact exists_eq_copyInto_name dest hj.1 hj.2

/-- The copy of a state is a state with the same flag and, in the same order, edges of the
same labels to the copies of the targets. -/
theorem state?_copyInto_name (hi : i ∈ g.reachableFrom roots) :
    ∃ s, g.state? i = some s ∧
      (g.copyInto roots dest).1.state? ((g.copyInto roots dest).2 i) =
        some ⟨s.isFinal, s.edges.map fun e => ⟨e.label, (g.copyInto roots dest).2 e.target⟩⟩ := by
  have hlt : i < g.states.size := lt_size_of_mem_reachableFrom hi
  have hstate : g.state? i = some g.states[i] := Array.getElem?_eq_getElem hlt
  refine ⟨_, hstate, ?_⟩
  rw [state?] at hstate ⊢
  rw [getElem?_copyInto_name dest hi, hstate]
  rfl

/-- Copying what the roots lead to leaves the graph before untouched and puts one copy of
each state found behind it, numbered in the order of the search.  Flags, labels and the
order of edges are those of the original; every copied edge leads to the copy of its target,
which has been given a number; and the roots go by the numbers of their copies. -/
theorem copyInto_isomorphic (hclosed : g.Closed) (hroots : ∀ r ∈ roots, r < g.size)
    (dest : Graph) :
    let order := g.reachableFrom roots
    let copied := (g.copyInto roots dest).1
    let name := (g.copyInto roots dest).2
    (∀ i, i ∈ order ↔ ∃ r ∈ roots, Leads g.successors r i) ∧ order.Nodup ∧
    (∀ i < dest.size, copied.state? i = dest.state? i) ∧
    copied.size = dest.size + order.length ∧
    Set.BijOn name {i | i ∈ order} (Set.Ico dest.size copied.size) ∧
    (∀ i ∈ order, name i = dest.size + order.idxOf i ∧
      ∃ s, g.state? i = some s ∧
        copied.state? (name i) =
          some ⟨s.isFinal, s.edges.map fun e => ⟨e.label, name e.target⟩⟩ ∧
        ∀ e ∈ s.edges, e.target ∈ order ∧
          (numbering g.size dest.size order)[e.target]? = some (some (name e.target))) ∧
    ∀ r ∈ roots, r ∈ order ∧
      (numbering g.size dest.size order)[r]? = some (some (name r)) := by
  refine ⟨fun i => mem_reachableFrom_iff hclosed hroots, nodup_reachableFrom,
    fun i hi => state?_copyInto g roots dest hi, size_copyInto g roots dest,
    bijOn_copyInto_name dest g roots, fun i hi => ?_, fun r hr => ?_⟩
  · obtain ⟨s, hs, hcopy⟩ := state?_copyInto_name dest hi
    refine ⟨copyInto_name_eq_idxOf dest hi, s, hs, hcopy, fun e he => ?_⟩
    have hedge : e ∈ g.edges i := by
      rw [state?] at hs
      rw [edges, hs]
      exact he
    have htarget := isPart_reachableFrom hclosed i hi e hedge
    exact ⟨htarget, getElem?_numbering_of_mem dest htarget⟩
  · have hfound := mem_reachableFrom_of_mem hr (hroots r hr)
    exact ⟨hfound, getElem?_numbering_of_mem dest hfound⟩

theorem reachableFrom_crossing_twoRoots : crossing.reachableFrom [2, 1] = [2, 0, 1] := by
  cbv

/-- Three of the four states are copied behind all four, and the edges of the first copy lead
to the other two. -/
theorem copyInto_isomorphic_crossing :
    crossing.Closed ∧ (∀ r ∈ [2, 1], r < crossing.size) ∧
    (crossing.copyInto [2, 1] crossing).1.size = 7 ∧
    [2, 1].map (crossing.copyInto [2, 1] crossing).2 = [4, 6] ∧
    (crossing.copyInto [2, 1] crossing).1.state? 4 =
      some ⟨false, [⟨CodeSet.single 97, 5⟩, ⟨CodeSet.silent, 6⟩]⟩ ∧
    (crossing.copyInto [2, 1] crossing).1.state? 2 = crossing.state? 2 := by
  have hclosed : crossing.Closed := by decide
  have hroots : ∀ r ∈ [2, 1], r < crossing.size := by decide
  obtain ⟨-, -, hold, hsize, -, hcopy, -⟩ := copyInto_isomorphic hclosed hroots crossing
  rw [reachableFrom_crossing_twoRoots] at hsize hcopy
  have hname : ∀ i ∈ [2, 0, 1],
      (crossing.copyInto [2, 1] crossing).2 i = crossing.size + [2, 0, 1].idxOf i :=
    fun i hi => (hcopy i hi).1
  have htwo : (crossing.copyInto [2, 1] crossing).2 2 = 4 := hname 2 (by decide)
  have hzero : (crossing.copyInto [2, 1] crossing).2 0 = 5 := hname 0 (by decide)
  have hone : (crossing.copyInto [2, 1] crossing).2 1 = 6 := hname 1 (by decide)
  refine ⟨hclosed, hroots, hsize, by rw [List.map_cons, List.map_cons, htwo, hone]; rfl, ?_,
    hold 2 (by decide)⟩
  obtain ⟨-, s, hs, hstate, -⟩ := hcopy 2 (by decide)
  obtain rfl : (⟨false, [⟨CodeSet.single 97, 0⟩, ⟨CodeSet.silent, 1⟩]⟩ : State) = s :=
    Option.some.inj hs
  rw [htwo] at hstate
  rw [hstate, List.map_cons, List.map_cons, hzero, hone]
  rfl

end Graph
end Munch

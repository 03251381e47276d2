import Munch.Proofs.Graph.Reverse

/-!
# Reversal one edge at a time

A reversed automaton is built from states without edges: one after the other, in the order
of the search, the reachable states are turned round, and every edge that this makes comes
last at its source.  Since there are no edges before, that lists the edges of every state
in the same order as adding them all at once.

Main results:

- Theorem {lit}`Graph.reverse_eq_foldl`: reversal is turning one state after the other.
- Theorem {lit}`Graph.path_reverse_iff`: a path to a reachable state is a path from it, read
  backwards.
- Theorem {lit}`Graph.reverse_accepts_backwards`: the reversed automaton accepts the reversed
  words, nothing leads to its start, and the root is its only final state.
-/

namespace Munch
namespace Graph

variable {g r : Graph} {root i j : Nat} {e : Edge} {w : List Int}

/-! ## Turning one state after the other -/

theorem addEach_cons (entry : Nat × Edge) (listed : List (Nat × Edge)) :
    g.addEach (entry :: listed) =
      (g.addEdge entry.1 entry.2.label entry.2.target).addEach listed :=
  rfl

theorem turnState_eq_addEach : g.turnState r i = r.addEach (g.turned i) := by
  rw [turnState, addEach, turned, List.foldl_append, List.foldl_map]
  split <;> rfl

@[simp]
theorem size_addEach (listed : List (Nat × Edge)) : (g.addEach listed).size = g.size := by
  induction listed generalizing g with
  | nil => rfl
  | cons entry listed ih => rw [addEach_cons, ih, size_addEdge]

theorem isFinal_addEach (listed : List (Nat × Edge)) :
    (g.addEach listed).isFinal i = g.isFinal i := by
  induction listed generalizing g with
  | nil => rfl
  | cons entry listed ih => rw [addEach_cons, ih, isFinal_addEdge]

/-- The edges listed for a state come behind those it had. -/
theorem edges_addEach {listed : List (Nat × Edge)} (hi : i < g.size) :
    (g.addEach listed).edges i = g.edges i ++ listedFor listed i := by
  induction listed generalizing g with
  | nil => exact (List.append_nil _).symm
  | cons entry listed ih =>
    rw [addEach_cons, ih (by rwa [size_addEdge]), edges_addEdge, listedFor_cons]
    by_cases hentry : entry.1 = i
    · rw [if_pos ⟨hentry, hi⟩, if_pos hentry, List.append_assoc, List.singleton_append]
    · rw [if_neg fun h => hentry h.1, if_neg hentry]

/-- Without edges before, it does not matter at which end edges are added. -/
theorem addEach_edgeless (size final : Nat) (listed : List (Nat × Edge)) :
    (edgeless size final).addEach listed = (edgeless size final).addAll listed := by
  refine eq_of_edges_eq ?_ (fun i => ?_) fun i => ?_
  · rw [size_addEach, size_addAll]
  · rw [isFinal_addEach, isFinal_addAll]
  · by_cases hi : i < (edgeless size final).size
    · rw [edges_addEach hi, edges_addAll hi, edges_edgeless, List.nil_append, List.append_nil]
    · have hle := Nat.not_lt.mp hi
      rw [edges_eq_nil_of_size_le (by rwa [size_addEach]),
        edges_eq_nil_of_size_le (by rwa [size_addAll])]

/-- Reversal is turning one reachable state after the other, in the order of the search. -/
theorem reverse_eq_foldl (g : Graph) (root : Nat) :
    g.reverse root = (g.reachable root).foldl g.turnState (edgeless (g.size + 1) root) := by
  rw [reverse, ← addEach_edgeless, addEach, List.foldl_flatMap]
  congr 1
  funext r i
  exact turnState_eq_addEach.symm

/-! ## Paths and words -/

/-- Reversal turns the reachable states round, one after the other.  Between old states its
paths are those of the given automaton, read backwards, and it accepts from its start the
reversed words of the root.  No edge leads to the start, and the root is the only final
state. -/
theorem reverse_accepts_backwards (hclosed : g.Closed) (hroot : root < g.size) :
    let backward := g.reverse root
    backward = (g.reachable root).foldl g.turnState (edgeless (g.size + 1) root) ∧
    backward.size = g.size + 1 ∧
    (∀ i < g.size, ∀ j ∈ g.reachable root, ∀ w,
      backward.Path i w j ↔ g.Path j w.reverse i) ∧
    (∀ w, backward.Accepts g.size w ↔ g.Accepts root w.reverse) ∧
    (∀ i, ∀ e ∈ backward.edges i, e.target ≠ g.size) ∧
    ∀ i, backward.isFinal i = true ↔ i = root :=
  ⟨reverse_eq_foldl g root, size_reverse g root,
    fun _ hi _ hj _ => path_reverse_iff hclosed hi hj,
    fun _ => accepts_reverse_iff hclosed hroot,
    fun _ _ he => Nat.ne_of_lt (target_lt_of_mem_edges_reverse he),
    fun _ => isFinal_reverse_iff hroot⟩

/-- Runs of the code 97 and then of 100, with 98 or 99 between them or not: two final states
that the first one leads to, a label that can be passed with or without input, and a final
state that nothing leads to. -/
def twoRuns : Graph :=
  ⟨#[⟨false, [⟨CodeSet.single 97, 0⟩, ⟨⟨[-1, 0, 98, 100], by decide, by decide⟩, 1⟩]⟩,
    ⟨true, [⟨CodeSet.single 100, 2⟩]⟩,
    ⟨true, [⟨CodeSet.silent, 1⟩]⟩,
    ⟨true, [⟨CodeSet.single 97, 0⟩]⟩]⟩

/-- Behind the code 100 the first state cannot be reached any more. -/
theorem not_accepts_twoRuns : ¬twoRuns.Accepts 0 [100, 97] := by
  have hbehind : ∀ i < twoRuns.size, ∀ e ∈ twoRuns.edges i, 100 ∈ e.label → e.target = 2 := by
    decide
  have hnone : ∀ i ∈ [1, 2], ∀ e ∈ twoRuns.edges i, 97 ∉ e.label ∧ e.target ∈ [1, 2] := by
    decide
  rintro ⟨k, hpath, -⟩
  obtain ⟨i, e, he, -, hread, -, hrest⟩ := hpath.exists_edge
  rw [hbehind i (lt_size_of_mem_edges he) e he hread] at hrest
  obtain ⟨j, f, hf, hsilent, hread', -, -⟩ := hrest.exists_edge
  have hpart : twoRuns.IsPart {i | i ∈ [1, 2]} := fun i hi e he => (hnone i hi e he).2
  have hj : j ∈ [1, 2] := hpart.mem_of_path (show 2 ∈ [1, 2] by decide) hsilent
  exact (hnone j hj f hf).1 hread'

theorem accepts_twoRuns : twoRuns.Accepts 0 [97, 100] := by
  refine ⟨2, ?_, by decide⟩
  have hfirst : twoRuns.Path 0 [97] 0 :=
    Path.of_edge (e := ⟨CodeSet.single 97, 0⟩) (by decide) (by decide) (by decide)
  have hsilent : twoRuns.Path 0 [] 1 :=
    Path.silent (e := ⟨⟨[-1, 0, 98, 100], by decide, by decide⟩, 1⟩) (by decide) (by decide)
      (Path.nil 1)
  have hlast : twoRuns.Path 1 [100] 2 :=
    Path.of_edge (e := ⟨CodeSet.single 100, 2⟩) (by decide) (by decide) (by decide)
  exact (hfirst.append_silent hsilent).append hlast

/-- Backwards the runs come the other way round. -/
theorem reverse_accepts_backwards_twoRuns :
    twoRuns.Closed ∧ 0 < twoRuns.size ∧ (twoRuns.reverse 0).Accepts 4 [100, 97] ∧
      ¬(twoRuns.reverse 0).Accepts 4 [97, 100] ∧
      (∀ i, ∀ e ∈ (twoRuns.reverse 0).edges i, e.target ≠ 4) ∧
      ∀ i, (twoRuns.reverse 0).isFinal i = true ↔ i = 0 := by
  have hclosed : twoRuns.Closed := by decide
  have hroot : 0 < twoRuns.size := by decide
  obtain ⟨-, -, -, haccepts, hstart, hfinal⟩ := reverse_accepts_backwards hclosed hroot
  exact ⟨hclosed, hroot, (haccepts [100, 97]).mpr accepts_twoRuns,
    mt (haccepts [97, 100]).mp not_accepts_twoRuns, hstart, hfinal⟩

end Graph
end Munch

import Munch.Proofs.Graph.Forward

/-!
# A walk with marks

The loop behind a topological order keeps a stack of open states, each with the number of
its edges that have been looked at, and marks every state as fresh, entered or left.  A
round looks at one more edge of the state on top, or leaves that state when it has no
more edges.

Main results:

- Theorem {lit}`MarkedWalk.Marked.of_round`: the marks tell the open states from those left.
- Theorem {lit}`MarkedWalk.spent_of_round`: every round looks at an edge or leaves a state.
- Theorem {lit}`MarkedWalk.exists_rounds`: the loop ends with what the recursion leaves.
- Theorem {lit}`Graph.topologicalOrder_forward_or_cycle`: the order that the loop finds holds
  what the root leads to, and its edges lead forward unless they close a cycle.
-/

namespace Munch
namespace MarkedWalk

variable {next : Nat → List Nat} {s t : MarkedWalk} {i j k n size : Nat}
  {fresh : Array Bool} {opened rest : List (Nat × List Nat)} {left targets : List Nat}

/-- What a round can do. -/
theorem round_cases (h : s.round next = some t) :
    ∃ i k rest, s.opened = (i, k) :: rest ∧
      ((∃ j, (next i)[k]? = some j ∧ s.marks[j]? = some .fresh ∧
          t = ⟨s.marks.setIfInBounds j .entered, (j, 0) :: (i, k + 1) :: rest, s.left⟩) ∨
        (∃ j, (next i)[k]? = some j ∧ s.marks[j]? ≠ some .fresh ∧
          t = ⟨s.marks, (i, k + 1) :: rest, s.left⟩) ∨
        (next i)[k]? = none ∧ t = ⟨s.marks.setIfInBounds i .left, rest, s.left ++ [i]⟩) := by
  rw [round] at h
  split at h
  · cases h
  · rename_i i k rest hopened
    refine ⟨i, k, rest, hopened, ?_⟩
    split at h
    · rename_i j hj
      split at h
      · rename_i hfresh
        exact Or.inl ⟨j, hj, hfresh, (Option.some.inj h).symm⟩
      · rename_i hfresh
        exact Or.inr (Or.inl ⟨j, hj, hfresh, (Option.some.inj h).symm⟩)
    · rename_i hnone
      exact Or.inr (Or.inr ⟨hnone, (Option.some.inj h).symm⟩)

/-- What every round keeps holds after a number of them. -/
theorem of_rounds {P : MarkedWalk → Prop} (hround : ∀ s t, s.round next = some t → P s → P t)
    (h : s.rounds next n = some t) (hs : P s) : P t := by
  induction n generalizing s with
  | zero =>
    obtain rfl := Option.some.inj h
    exact hs
  | succ n ih =>
    obtain ⟨u, hfirst, hrest⟩ := Option.bind_eq_some_iff.mp h
    exact ih hrest (hround s u hfirst hs)

/-! ## Marks -/

/-- The marks of a walk tell its open states from those that it has left, and no state is
open twice. -/
structure Marked (size : Nat) (s : MarkedWalk) : Prop where
  size_marks : s.marks.size = size
  entered_iff : ∀ i, s.marks[i]? = some .entered ↔ i ∈ s.opened.map Prod.fst
  left_iff : ∀ i, s.marks[i]? = some .left ↔ i ∈ s.left
  nodup : (s.opened.map Prod.fst).Nodup

theorem getElem?_setMark {marks : Array Mark} {old new : Mark} (hi : marks[i]? = some old) :
    (marks.setIfInBounds i new)[j]? = if j = i then some new else marks[j]? := by
  obtain ⟨hlt, -⟩ := Array.getElem?_eq_some_iff.mp hi
  rw [Array.getElem?_setIfInBounds]
  by_cases hji : j = i
  · rw [if_pos hji, if_pos hji.symm, if_pos hlt]
  · rw [if_neg hji, if_neg (Ne.symm hji)]

/-- A round keeps the marks in step with the stack and the states left. -/
theorem Marked.of_round (h : s.Marked size) (hround : s.round next = some t) :
    t.Marked size := by
  obtain ⟨i, k, rest, hopened, hcases⟩ := round_cases hround
  have hentered := h.entered_iff
  have hnodup := h.nodup
  rw [hopened, List.map_cons] at hentered hnodup
  rcases hcases with ⟨j, -, hfresh, rfl⟩ | ⟨j, -, -, rfl⟩ | ⟨-, rfl⟩
  · -- A state that is entered was fresh, so it was neither open nor left.
    refine ⟨by rw [Array.size_setIfInBounds, h.size_marks], fun x => ?_, fun x => ?_, ?_⟩
    · rw [getElem?_setMark hfresh, List.map_cons, List.map_cons, List.mem_cons, ← hentered x]
      by_cases hx : x = j <;> simp [hx]
    · rw [getElem?_setMark hfresh, ← h.left_iff x]
      by_cases hx : x = j <;> simp [hx, hfresh]
    · refine List.nodup_cons.mpr ⟨fun hmem => ?_, hnodup⟩
      have hmark := (hentered j).mpr hmem
      rw [hfresh] at hmark
      cases hmark
  · exact ⟨h.size_marks, hentered, h.left_iff, hnodup⟩
  · -- A state that is left was open once, so it is no longer open.
    obtain ⟨hnot, hrest⟩ := List.nodup_cons.mp hnodup
    have hi := (hentered i).mpr List.mem_cons_self
    refine ⟨by rw [Array.size_setIfInBounds, h.size_marks], fun x => ?_, fun x => ?_, hrest⟩
    · rw [getElem?_setMark hi]
      by_cases hx : x = i
      · subst hx
        simpa using hnot
      · rw [if_neg hx, hentered x, List.mem_cons]
        exact or_iff_right hx
    · rw [getElem?_setMark hi, List.mem_append, List.mem_singleton, ← h.left_iff x]
      by_cases hx : x = i <;> simp [hx]

/-- Every open state has a mark. -/
theorem Marked.lt_size (h : s.Marked size) (hi : i ∈ s.opened.map Prod.fst) : i < size := by
  obtain ⟨hlt, -⟩ := Array.getElem?_eq_some_iff.mp ((h.entered_iff i).mpr hi)
  exact h.size_marks ▸ hlt

/-! ## The number of rounds -/

/-- The number of edges that have been looked at and of states that have been left. -/
def spent (next : Nat → List Nat) (s : MarkedWalk) : Nat :=
  (s.opened.flatMap fun entry => (next entry.1).take entry.2).length +
    (s.left.flatMap next).length + s.left.length

/-- Every round looks at an edge or leaves a state. -/
theorem spent_of_round (h : s.round next = some t) : t.spent next = s.spent next + 1 := by
  obtain ⟨i, k, rest, hopened, ⟨j, hj, -, rfl⟩ | ⟨j, hj, -, rfl⟩ | ⟨hnone, rfl⟩⟩ := round_cases h
  · obtain ⟨hlt, -⟩ := List.getElem?_eq_some_iff.mp hj
    simp only [spent, hopened, List.flatMap_cons, List.length_append, List.length_take,
      List.take_zero, List.length_nil]
    omega
  · obtain ⟨hlt, -⟩ := List.getElem?_eq_some_iff.mp hj
    simp only [spent, hopened, List.flatMap_cons, List.length_append, List.length_take]
    omega
  · -- All edges of the state have been looked at, and they are counted with it from now on.
    have hle := List.getElem?_eq_none_iff.mp hnone
    simp only [spent, hopened, List.flatMap_cons, List.flatMap_append, List.flatMap_nil,
      List.length_append, List.length_take, List.length_cons, List.length_nil]
    omega

theorem spent_of_rounds (h : s.rounds next n = some t) : t.spent next = s.spent next + n := by
  induction n generalizing s with
  | zero =>
    obtain rfl := Option.some.inj h
    rfl
  | succ n ih =>
    obtain ⟨u, hfirst, hrest⟩ := Option.bind_eq_some_iff.mp h
    rw [ih hrest, spent_of_round hfirst]
    omega

/-! ## The loop and the recursion -/

/-- A walk with marks represents the arguments of the recursion: the same states are fresh,
each open state comes with the targets of the edges that have not been looked at, and the
states left come last one first. -/
structure Represents (next : Nat → List Nat) (s : MarkedWalk) (fresh : Array Bool)
    (opened : List (Nat × List Nat)) (left : List Nat) : Prop where
  fresh_iff : ∀ i : Nat, fresh[i]? = some true ↔ s.marks[i]? = some .fresh
  opened_eq : s.opened.map (fun entry => (entry.1, (next entry.1).drop entry.2)) = opened
  left_eq : s.left.reverse = left

namespace Represents

/-- The state on top of the stack, with its next edge. -/
theorem exists_top (h : s.Represents next fresh ((i, targets) :: rest) left) :
    ∃ k below, s.opened = (i, k) :: below ∧ (next i).drop k = targets ∧
      below.map (fun entry => (entry.1, (next entry.1).drop entry.2)) = rest := by
  obtain ⟨⟨i', k⟩, below, hopened, hentry, hbelow⟩ := List.map_eq_cons_iff.mp h.opened_eq
  obtain ⟨rfl, htargets⟩ := Prod.ext_iff.mp hentry
  exact ⟨k, below, hopened, htargets, hbelow⟩

theorem getElem?_of_drop {l : List Nat} (h : l.drop k = j :: targets) :
    l[k]? = some j ∧ l.drop (k + 1) = targets := by
  constructor
  · rw [← List.head?_drop, h, List.head?_cons]
  · rw [← List.tail_drop, h, List.tail_cons]

/-- When the targets are used up, a round leaves the state on top. -/
theorem leave (h : s.Represents next fresh ((i, []) :: rest) left) (hmarked : s.Marked size) :
    ∃ t, s.round next = some t ∧ t.Represents next fresh rest (i :: left) := by
  obtain ⟨k, below, hopened, htargets, hbelow⟩ := h.exists_top
  have hnone : (next i)[k]? = none := List.getElem?_eq_none (List.drop_eq_nil_iff.mp htargets)
  have hi : s.marks[i]? = some .entered :=
    (hmarked.entered_iff i).mpr (hopened ▸ List.mem_cons_self)
  refine ⟨⟨s.marks.setIfInBounds i .left, below, s.left ++ [i]⟩, ?_, fun x => ?_, hbelow, ?_⟩
  · rw [round, hopened]
    simp only [hnone]
  · rw [h.fresh_iff, getElem?_setMark hi]
    by_cases hx : x = i <;> simp [hx, hi]
  · rw [List.reverse_append, h.left_eq]
    rfl

/-- A round enters the target of the next edge if it is fresh. -/
theorem enter (h : s.Represents next fresh ((i, j :: targets) :: rest) left)
    (hj : fresh[j]? = some true) :
    ∃ t, s.round next = some t ∧
      t.Represents next (fresh.setIfInBounds j false) ((j, next j) :: (i, targets) :: rest)
        left := by
  obtain ⟨k, below, hopened, htargets, hbelow⟩ := h.exists_top
  obtain ⟨hedge, htargets⟩ := getElem?_of_drop htargets
  have hmark := (h.fresh_iff j).mp hj
  obtain ⟨hlt, -⟩ := Array.getElem?_eq_some_iff.mp hj
  refine ⟨⟨s.marks.setIfInBounds j .entered, (j, 0) :: (i, k + 1) :: below, s.left⟩, ?_,
    fun x => ?_, ?_, h.left_eq⟩
  · rw [round, hopened]
    simp only [hedge, hmark, if_true]
  · rw [getElem?_setMark hmark]
    by_cases hx : x = j
    · rw [hx, Array.getElem?_setIfInBounds_self_of_lt hlt]
      simp
    · rw [Array.getElem?_setIfInBounds_ne (Ne.symm hx), if_neg hx, h.fresh_iff]
  · rw [List.map_cons, List.map_cons, htargets, hbelow, List.drop_zero]

/-- A round passes over the next edge if its target is not fresh. -/
theorem pass (h : s.Represents next fresh ((i, j :: targets) :: rest) left)
    (hj : fresh[j]? ≠ some true) :
    ∃ t, s.round next = some t ∧ t.Represents next fresh ((i, targets) :: rest) left := by
  obtain ⟨k, below, hopened, htargets, hbelow⟩ := h.exists_top
  obtain ⟨hedge, htargets⟩ := getElem?_of_drop htargets
  have hmark : s.marks[j]? ≠ some .fresh := mt (h.fresh_iff j).mpr hj
  refine ⟨⟨s.marks, (i, k + 1) :: below, s.left⟩, ?_, h.fresh_iff, ?_, h.left_eq⟩
  · rw [round, hopened]
    simp only [hedge, if_neg hmark]
  · rw [List.map_cons, htargets, hbelow]

end Represents

theorem exists_rounds_of_round {order : List Nat} (hround : s.round next = some t)
    (h : ∃ n u, t.rounds next n = some u ∧ u.opened = [] ∧ u.left.reverse = order) :
    ∃ n u, s.rounds next n = some u ∧ u.opened = [] ∧ u.left.reverse = order := by
  obtain ⟨n, u, hrounds, hend⟩ := h
  exact ⟨n + 1, u, Option.bind_eq_some_iff.mpr ⟨t, hround, hrounds⟩, hend⟩

/-- The loop ends with what the recursion leaves: every call of the recursion is a round. -/
theorem exists_rounds (hmarked : s.Marked size) (h : s.Represents next fresh opened left) :
    ∃ n t, s.rounds next n = some t ∧ t.opened = [] ∧
      t.left.reverse = leaveOrder next fresh opened left := by
  fun_induction leaveOrder next fresh opened left generalizing s with
  | case1 fresh left => exact ⟨0, s, rfl, List.map_eq_nil_iff.mp h.opened_eq, h.left_eq⟩
  | case2 fresh i rest left ih =>
    obtain ⟨t, hround, ht⟩ := h.leave hmarked
    exact exists_rounds_of_round hround (ih (hmarked.of_round hround) ht)
  | case3 fresh i j targets rest left hj ih =>
    obtain ⟨t, hround, ht⟩ := h.enter hj
    exact exists_rounds_of_round hround (ih (hmarked.of_round hround) ht)
  | case4 fresh i j targets rest left hj ih =>
    obtain ⟨t, hround, ht⟩ := h.pass hj
    exact exists_rounds_of_round hround (ih (hmarked.of_round hround) ht)

end MarkedWalk

/-! ## The walk of a graph -/

namespace Graph

variable {g : Graph} {root i j : Nat}

theorem getElem?_marks_markedWalk (hroot : root < g.size) :
    (g.markedWalk root).marks[i]? =
      if i = root then some .entered else if i < g.size then some .fresh else none := by
  have hfresh : (Array.replicate g.size Mark.fresh)[root]? = some .fresh := by
    rw [Array.getElem?_replicate, if_pos hroot]
  rw [markedWalk, MarkedWalk.getElem?_setMark hfresh, Array.getElem?_replicate]

theorem marked_markedWalk (hroot : root < g.size) : (g.markedWalk root).Marked g.size where
  size_marks := by rw [markedWalk, Array.size_setIfInBounds, Array.size_replicate]
  entered_iff i := by
    rw [getElem?_marks_markedWalk hroot, markedWalk, List.map_singleton, List.mem_singleton]
    by_cases hi : i = root
    · simp [hi]
    · by_cases hlt : i < g.size <;> simp [hi, hlt]
  left_iff i := by
    rw [getElem?_marks_markedWalk hroot]
    refine iff_of_false ?_ List.not_mem_nil
    by_cases hi : i = root
    · simp [hi]
    · by_cases hlt : i < g.size <;> simp [hi, hlt]
  nodup := List.nodup_singleton root

theorem represents_markedWalk (hroot : root < g.size) :
    (g.markedWalk root).Represents g.successors (g.allFresh.setIfInBounds root false)
      [(root, g.successors root)] [] where
  fresh_iff i := by
    rw [getElem?_marks_markedWalk hroot, Array.getElem?_setIfInBounds, allFresh,
      Array.getElem?_replicate]
    by_cases hi : i = root
    · simp [hi, hroot]
    · by_cases hlt : i < g.size <;> simp [hi, hlt, Ne.symm hi]
  opened_eq := rfl
  left_eq := rfl

/-- From any root the loop ends, and what it left, the last first, is the topological order.
It has looked once at every edge of a state of the order and left every state once. -/
theorem exists_rounds_markedWalk (hroot : root < g.size) :
    ∃ n s, (g.markedWalk root).rounds g.successors n = some s ∧ s.opened = [] ∧
      s.left.reverse = g.topologicalOrder root ∧
      n = ((g.topologicalOrder root).flatMap g.successors).length +
        (g.topologicalOrder root).length := by
  obtain ⟨n, s, hrounds, hempty, hleft⟩ :=
    MarkedWalk.exists_rounds (marked_markedWalk hroot) (represents_markedWalk hroot)
  have hspent := MarkedWalk.spent_of_rounds hrounds
  have hnone : (g.markedWalk root).spent g.successors = 0 := rfl
  rw [hnone, Nat.zero_add, MarkedWalk.spent, hempty] at hspent
  have hperm : (g.topologicalOrder root).Perm s.left := by
    rw [topologicalOrder, ← hleft]
    exact List.reverse_perm s.left
  refine ⟨n, s, hrounds, hempty, hleft, ?_⟩
  rw [(hperm.flatMap_right g.successors).length_eq, hperm.length_eq, ← hspent, List.flatMap_nil,
    List.length_nil, Nat.zero_add]

/-- From any root the loop over open states and marks ends, after one round for every edge
and every state that the root leads to.  Until then the marks tell the open states, which are
states of the graph, from those left.  What the loop finds is the order in which the recursion
leaves states, reversed.  It holds, once each, the states that the root leads to, and the root
comes first.  An edge between them leads forward, or its target leads back to its source; so
where there is no cycle every edge leads forward. -/
theorem topologicalOrder_forward_or_cycle (hclosed : g.Closed) (hroot : root < g.size) :
    let order := g.topologicalOrder root
    (∃ n s, (g.markedWalk root).rounds g.successors n = some s ∧ s.opened = [] ∧
      s.left.reverse = order ∧ n = (order.flatMap g.successors).length + order.length) ∧
    (∀ n s, (g.markedWalk root).rounds g.successors n = some s →
      s.Marked g.size ∧ ∀ i ∈ s.opened.map Prod.fst, i < g.size) ∧
    order = (postorder g.successors g.allFresh [root]).reverse ∧
    order.Perm (g.reachable root) ∧ order.Nodup ∧
    (∀ i, i ∈ order ↔ Leads g.successors root i) ∧ order.head? = some root ∧
    (∀ i ∈ order, ∀ j ∈ g.successors i,
      j ∈ order ∧ (order.idxOf i < order.idxOf j ∨ Leads g.successors j i)) ∧
    ((∀ i ∈ order, ¬Relation.TransGen (fun i j => j ∈ g.successors i) i i) →
      ∀ i ∈ order, ∀ j ∈ g.successors i, order.idxOf i < order.idxOf j) := by
  refine ⟨exists_rounds_markedWalk hroot, fun n s hrounds => ?_,
    topologicalOrder_eq_reverse_postorder hroot, topologicalOrder_perm_reachable hroot,
    nodup_topologicalOrder hroot, fun i => mem_topologicalOrder_iff hclosed, ?_,
    fun i hi j hj => ⟨?_, idxOf_lt_or_leads hclosed hroot hi hj⟩,
    fun hacyclic i hi j hj => idxOf_lt_of_acyclic hclosed hroot hacyclic hi hj⟩
  · have hmarked : s.Marked g.size :=
      MarkedWalk.of_rounds (fun s t hround hs => hs.of_round hround) hrounds
        (marked_markedWalk hroot)
    exact ⟨hmarked, fun i => hmarked.lt_size⟩
  · rw [topologicalOrder_eq_cons, List.head?_cons]
  · exact (mem_topologicalOrder_iff hclosed).mpr
      (((mem_topologicalOrder_iff hclosed).mp hi).tail hj)

/-- Four states without a cycle.  The first edge passes over a state that has to come before
its target. -/
def shortcut : Graph :=
  ⟨#[⟨false, [⟨CodeSet.single 97, 2⟩, ⟨CodeSet.single 98, 1⟩]⟩,
    ⟨false, [⟨CodeSet.single 99, 2⟩]⟩,
    ⟨false, [⟨CodeSet.single 100, 3⟩]⟩,
    ⟨true, []⟩]⟩

theorem topologicalOrder_shortcut : shortcut.topologicalOrder 0 = [0, 1, 2, 3] := by
  cbv

theorem topologicalOrder_crossing : crossing.topologicalOrder 0 = [0, 1, 2] := by
  cbv

/-- All edges of these states lead to greater numbers, so none of them leads back to itself. -/
theorem acyclic_shortcut (i : Nat) :
    ¬Relation.TransGen (fun i j => j ∈ shortcut.successors i) i i := by
  have hedge : ∀ i < shortcut.size, ∀ j ∈ shortcut.successors i, i < j := by decide
  have hlt : ∀ j, Relation.TransGen (fun i j => j ∈ shortcut.successors i) i j → i < j := by
    intro j hpath
    have hstep : ∀ i j, j ∈ shortcut.successors i → i < j := by
      intro i j hj
      obtain ⟨e, he, -⟩ := mem_successors_iff.mp hj
      exact hedge i (lt_size_of_mem_edges he) j hj
    induction hpath with
    | single hj => exact hstep i _ hj
    | tail _ hj ih => exact Nat.lt_trans ih (hstep _ _ hj)
  exact fun hcycle => Nat.lt_irrefl i (hlt i hcycle)

/-- Four edges without a cycle lead forward, found in eight rounds.  With cycles the edge
from the third state to the second leads backward, and the second leads to the third. -/
theorem topologicalOrder_forward_shortcut_cycle_crossing :
    (shortcut.Closed ∧ 0 < shortcut.size ∧
      (∃ n s, (shortcut.markedWalk 0).rounds shortcut.successors n = some s ∧ s.opened = [] ∧
        s.left.reverse = [0, 1, 2, 3] ∧ n = 8) ∧
      (∀ i, ¬Relation.TransGen (fun i j => j ∈ shortcut.successors i) i i) ∧
      ∀ i ∈ [0, 1, 2, 3], ∀ j ∈ shortcut.successors i,
        [0, 1, 2, 3].idxOf i < [0, 1, 2, 3].idxOf j) ∧
    crossing.Closed ∧ 0 < crossing.size ∧ crossing.topologicalOrder 0 = [0, 1, 2] ∧
      1 ∈ crossing.successors 2 ∧ Leads crossing.successors 1 2 := by
  have hshortcut : shortcut.Closed := by decide
  have hcrossing : crossing.Closed := by decide
  have hback : 1 ∈ crossing.successors 2 := by decide
  obtain ⟨hloop, -, -, -, -, -, -, -, hforward⟩ :=
    topologicalOrder_forward_or_cycle hshortcut (show 0 < shortcut.size by decide)
  obtain ⟨-, -, -, -, -, -, -, hedges, -⟩ :=
    topologicalOrder_forward_or_cycle hcrossing (show 0 < crossing.size by decide)
  rw [topologicalOrder_shortcut] at hloop hforward
  rw [topologicalOrder_crossing] at hedges
  refine ⟨⟨hshortcut, by decide, hloop, acyclic_shortcut,
    hforward fun i _ => acyclic_shortcut i⟩, hcrossing, by decide, topologicalOrder_crossing,
    hback, ?_⟩
  exact (hedges 2 (by decide) 1 hback).2.resolve_left (by decide)

end Graph
end Munch

import Munch.Proofs.Graph.Order

/-!
# Edges of a topological order lead forward

A state is left when all its edges have been looked at.  Each of them leads to a state that
was left before, which comes behind it in the order, or to one that is still open.  The
open states lie on one path, so from those below the top the edge has closed a cycle.

Main results:

- Theorems {lit}`Halfway.leave`, {lit}`Halfway.enter` and {lit}`Halfway.pass`: what holds
  halfway through a walk holds after each of its steps.
- Theorem {lit}`Halfway.forward_leaveOrder`: a walk leaves states with their successors
  behind them, except such as lead back.
- Theorem {lit}`Graph.idxOf_lt_or_leads`: an edge leads forward or closes a cycle.
-/

namespace Munch

/-- Every state of a list has its successors behind it, except such as lead back to it. -/
inductive Forward (next : Nat → List Nat) : List Nat → Prop
  | nil : Forward next []
  | cons {i : Nat} {rest : List Nat} (behind : ∀ j ∈ next i, j ∈ rest ∨ Leads next j i)
      (tail : Forward next rest) : Forward next (i :: rest)

section Forward

variable {next : Nat → List Nat} {i j : Nat} {order : List Nat}

/-- Where no state is repeated, a successor that does not lead back has a later place. -/
theorem Forward.idxOf_lt_or_leads (hforward : Forward next order) (hnodup : order.Nodup)
    (hi : i ∈ order) (hj : j ∈ next i) :
    (j ∈ order ∧ order.idxOf i < order.idxOf j) ∨ Leads next j i := by
  induction hforward with
  | nil => cases hi
  | @cons k rest behind _ ih =>
    obtain ⟨hfirst, hrest⟩ := List.nodup_cons.mp hnodup
    have hlater : ∀ x ∈ rest, (k :: rest).idxOf x = rest.idxOf x + 1 := fun x hx =>
      List.idxOf_cons_ne rest fun heq => hfirst (heq ▸ hx)
    rcases List.mem_cons.mp hi with rfl | hi
    · refine (behind j hj).imp_left fun hmem => ⟨List.mem_cons_of_mem _ hmem, ?_⟩
      rw [hlater j hmem, List.idxOf_cons_self]
      exact Nat.succ_pos _
    · refine (ih hrest hi).imp_left fun ⟨hmem, hlt⟩ => ⟨List.mem_cons_of_mem _ hmem, ?_⟩
      rw [hlater i hi, hlater j hmem]
      exact Nat.succ_lt_succ hlt

end Forward

/-! ## Halfway through a walk -/

/-- What holds halfway through a walk.  The open states lie on a path, the one entered last
on top.  Of the edges of an open state those that have been looked at lead to states that
are no longer fresh.  A state that is not fresh is open or has been left, and those left
have their successors behind them. -/
structure Halfway (next : Nat → List Nat) (fresh : Array Bool) (opened : List (Nat × List Nat))
    (left : List Nat) : Prop where
  path : opened.Pairwise fun upper lower => Leads next lower.1 upper.1
  looked : ∀ entry ∈ opened, ∃ seen, seen ++ entry.2 = next entry.1 ∧
    ∀ j ∈ seen, fresh[j]? ≠ some true
  found : ∀ i, ∀ j ∈ next i, fresh[j]? ≠ some true → j ∈ opened.map Prod.fst ∨ j ∈ left
  forward : Forward next left

namespace Halfway

variable {next : Nat → List Nat} {fresh : Array Bool} {i j : Nat} {targets : List Nat}
  {rest opened : List (Nat × List Nat)} {left : List Nat}

/-- A state can be left once all its edges have been looked at. -/
theorem leave (h : Halfway next fresh ((i, []) :: rest) left) :
    Halfway next fresh rest (i :: left) := by
  obtain ⟨hbelow, hpath⟩ := List.pairwise_cons.mp h.path
  obtain ⟨htop, hlooked⟩ := List.forall_mem_cons.mp h.looked
  refine ⟨hpath, hlooked, fun k j hj hfresh => ?_, .cons (fun j hj => ?_) h.forward⟩
  · rcases h.found k j hj hfresh with hopen | hleft
    · rcases List.mem_cons.mp hopen with rfl | hopen
      · exact Or.inr List.mem_cons_self
      · exact Or.inl hopen
    · exact Or.inr (List.mem_cons_of_mem i hleft)
  · obtain ⟨seen, hseen, hfresh⟩ := htop
    obtain rfl : seen = next i := (List.append_nil seen).symm.trans hseen
    rcases h.found i j hj (hfresh j hj) with hopen | hleft
    · -- A successor that is still open lies on the path below, so it leads back.
      rcases List.mem_cons.mp hopen with rfl | hopen
      · exact Or.inr Relation.ReflTransGen.refl
      · obtain ⟨entry, hentry, rfl⟩ := List.mem_map.mp hopen
        exact Or.inr (hbelow entry hentry)
    · exact Or.inl hleft

/-- An edge has been looked at once its target is no longer fresh. -/
theorem looked_of_cons {fresh' : Array Bool}
    (h : Halfway next fresh ((i, j :: targets) :: rest) left)
    (hless : ∀ k : Nat, fresh'[k]? = some true → fresh[k]? = some true) (hj : fresh'[j]? ≠ some true) :
    ∀ entry ∈ (i, targets) :: rest, ∃ seen, seen ++ entry.2 = next entry.1 ∧
      ∀ k ∈ seen, fresh'[k]? ≠ some true := by
  obtain ⟨⟨seen, hseen, hfresh⟩, hlooked⟩ := List.forall_mem_cons.mp h.looked
  refine List.forall_mem_cons.mpr ⟨⟨seen ++ [j], ?_, ?_⟩, fun entry hentry => ?_⟩
  · rw [List.append_assoc, List.singleton_append]
    exact hseen
  · refine List.forall_mem_append.mpr ⟨fun k hk => mt (hless k) (hfresh k hk), ?_⟩
    exact List.forall_mem_singleton.mpr hj
  · obtain ⟨seen, hseen, hfresh⟩ := hlooked entry hentry
    exact ⟨seen, hseen, fun k hk => mt (hless k) (hfresh k hk)⟩

/-- The target of an edge can be entered when it is fresh. -/
theorem enter (h : Halfway next fresh ((i, j :: targets) :: rest) left)
    (hj : fresh[j]? = some true) :
    Halfway next (fresh.setIfInBounds j false) ((j, next j) :: (i, targets) :: rest) left := by
  obtain ⟨hlt, -⟩ := Array.getElem?_eq_some_iff.mp hj
  have hmarked : (fresh.setIfInBounds j false)[j]? ≠ some true := by
    rw [Array.getElem?_setIfInBounds_self_of_lt hlt]
    simp
  obtain ⟨hbelow, hpath⟩ := List.pairwise_cons.mp h.path
  have hedge : Leads next i j := by
    obtain ⟨seen, hseen, -⟩ := (List.forall_mem_cons.mp h.looked).1
    have hmem : j ∈ next i := hseen ▸ List.mem_append_right seen List.mem_cons_self
    exact Relation.ReflTransGen.single hmem
  refine ⟨?_, ?_, fun k t ht hfresh => ?_, h.forward⟩
  · refine List.pairwise_cons.mpr ⟨List.forall_mem_cons.mpr ⟨hedge, fun entry hentry => ?_⟩,
      List.pairwise_cons.mpr ⟨hbelow, hpath⟩⟩
    exact (hbelow entry hentry).trans hedge
  · refine List.forall_mem_cons.mpr ⟨⟨[], rfl, List.forall_mem_nil _⟩, ?_⟩
    exact h.looked_of_cons (fun k => fresh_of_setIfInBounds) hmarked
  · -- Only the target has changed its mark, and it is open now.
    by_cases htj : t = j
    · exact Or.inl (List.mem_cons.mpr (Or.inl htj))
    · have hbefore := h.found k t ht fun hold => hfresh (fresh_of_ne hold htj)
      exact hbefore.imp_left (List.mem_cons_of_mem j)

/-- An edge to a state that is not fresh can be passed over. -/
theorem pass (h : Halfway next fresh ((i, j :: targets) :: rest) left)
    (hj : fresh[j]? ≠ some true) : Halfway next fresh ((i, targets) :: rest) left := by
  obtain ⟨hbelow, hpath⟩ := List.pairwise_cons.mp h.path
  exact ⟨List.pairwise_cons.mpr ⟨hbelow, hpath⟩, h.looked_of_cons (fun _ => id) hj, h.found,
    h.forward⟩

/-- A walk leaves states with their successors behind them, except such as lead back. -/
theorem forward_leaveOrder (h : Halfway next fresh opened left) :
    Forward next (leaveOrder next fresh opened left) := by
  fun_induction leaveOrder next fresh opened left with
  | case1 fresh left => exact h.forward
  | case2 fresh i rest left ih => exact ih h.leave
  | case3 fresh i j targets rest left hj ih => exact ih (h.enter hj)
  | case4 fresh i j targets rest left hj ih => exact ih (h.pass hj)

end Halfway

namespace Graph

variable {g : Graph} {root i j : Nat}

/-- Before the first step the root alone is open. -/
theorem halfway_root (hclosed : g.Closed) :
    Halfway g.successors (g.allFresh.setIfInBounds root false) [(root, g.successors root)] [] where
  path := List.pairwise_singleton _ _
  looked := List.forall_mem_singleton.mpr ⟨[], rfl, List.forall_mem_nil _⟩
  found i j hj hfresh := by
    obtain ⟨e, he, rfl⟩ := mem_successors_iff.mp hj
    by_cases hroot : e.target = root
    · exact Or.inl (List.mem_singleton.mpr hroot)
    · exact absurd (fresh_of_ne (allFresh_of_lt (hclosed i e he)) hroot) hfresh
  forward := .nil

theorem forward_topologicalOrder (hclosed : g.Closed) :
    Forward g.successors (g.topologicalOrder root) :=
  (halfway_root hclosed).forward_leaveOrder

/-- An edge between states of the order leads forward or closes a cycle. -/
theorem idxOf_lt_or_leads (hclosed : g.Closed) (hroot : root < g.size)
    (hi : i ∈ g.topologicalOrder root) (hj : j ∈ g.successors i) :
    (g.topologicalOrder root).idxOf i < (g.topologicalOrder root).idxOf j ∨
      Leads g.successors j i :=
  ((forward_topologicalOrder hclosed).idxOf_lt_or_leads (nodup_topologicalOrder hroot) hi
    hj).imp_left And.right

/-- Where no state leads back to itself, every edge leads forward. -/
theorem idxOf_lt_of_acyclic (hclosed : g.Closed) (hroot : root < g.size)
    (hacyclic : ∀ i ∈ g.topologicalOrder root,
      ¬Relation.TransGen (fun i j => j ∈ g.successors i) i i)
    (hi : i ∈ g.topologicalOrder root) (hj : j ∈ g.successors i) :
    (g.topologicalOrder root).idxOf i < (g.topologicalOrder root).idxOf j :=
  (idxOf_lt_or_leads hclosed hroot hi hj).resolve_right fun hback =>
    hacyclic i hi (Relation.TransGen.head' hj hback)

end Graph
end Munch

import Munch.Proofs.Graph.Search

/-!
# Depth-first search by recursion and with a stack

Told by recursion, a search visits some states one after the other: a fresh state is
found, then what a visit of its successors finds, and then what the states behind it
find.  A loop with a stack does the same.  It pushes only those successors that are fresh
at that time, and it looks again at a state that it takes from the stack, because the
state may have been found in between.

Main results:

- Theorem {lit}`depthFirst_filter`: states that are not fresh can be left out of a visit.
- Theorem {lit}`StackSearch.ahead_of_round`: what has been found, with what the
  recursion finds from the stack, is the same before and after a round of the loop.
- Theorem {lit}`StackSearch.exists_rounds`: the loop ends with what the recursion finds.
- Theorem {lit}`Graph.reachableFrom_eq_depthFirst`: the search of the library is that of
  the recursion, and so is the loop.
-/

namespace Munch

/-! ## By recursion -/

/-- What a visit found, in order of discovery, and the states still fresh after it, of
which there are no more than before. -/
structure Visited (fresh : Array Bool) where
  found : List Nat
  left : Array Bool
  count_le : left.count true ≤ fresh.count true

/-- Visits some states one after the other.  To visit a fresh state is to find it and to
visit its successors; a state that is not fresh is passed over. -/
def visitAll (next : Nat → List Nat) (fresh : Array Bool) : List Nat → Visited fresh
  | [] => ⟨[], fresh, Nat.le_refl _⟩
  | i :: todo =>
    if h : fresh[i]? = some true then
      let below := visitAll next (fresh.setIfInBounds i false) (next i)
      have hbelow := Nat.lt_of_le_of_lt below.count_le (count_fresh_lt h)
      let behind := visitAll next below.left todo
      ⟨i :: (below.found ++ behind.found), behind.left,
        Nat.le_trans behind.count_le (Nat.le_of_lt hbelow)⟩
    else visitAll next fresh todo
termination_by todo => (fresh.count true, todo.length)
decreasing_by
  · exact Prod.Lex.left _ _ (count_fresh_lt h)
  · exact Prod.Lex.left _ _ hbelow
  · exact Prod.Lex.right _ (Nat.lt_succ_self _)

/-- The states that a visit finds, in order of discovery. -/
def depthFirst (next : Nat → List Nat) (fresh : Array Bool) (todo : List Nat) : List Nat :=
  (visitAll next fresh todo).found

/-- The states that are fresh after a visit. -/
def freshAfter (next : Nat → List Nat) (fresh : Array Bool) (todo : List Nat) : Array Bool :=
  (visitAll next fresh todo).left

section Recursion

variable {next : Nat → List Nat} {fresh : Array Bool} {i j : Nat} {todo : List Nat}

theorem count_freshAfter_le :
    (freshAfter next fresh todo).count true ≤ fresh.count true :=
  (visitAll next fresh todo).count_le

@[simp]
theorem depthFirst_nil : depthFirst next fresh [] = [] := by
  rw [depthFirst, visitAll]

@[simp]
theorem freshAfter_nil : freshAfter next fresh [] = fresh := by
  rw [freshAfter, visitAll]

/-- A fresh state is found before everything behind it, and its successors are visited
before the rest. -/
theorem depthFirst_cons_of_fresh (h : fresh[i]? = some true) :
    depthFirst next fresh (i :: todo) =
      i :: (depthFirst next (fresh.setIfInBounds i false) (next i) ++
        depthFirst next (freshAfter next (fresh.setIfInBounds i false) (next i)) todo) := by
  rw [depthFirst, visitAll, dif_pos h]
  rfl

theorem freshAfter_cons_of_fresh (h : fresh[i]? = some true) :
    freshAfter next fresh (i :: todo) =
      freshAfter next (freshAfter next (fresh.setIfInBounds i false) (next i)) todo := by
  rw [freshAfter, visitAll, dif_pos h]
  rfl

theorem depthFirst_cons_of_not_fresh (h : fresh[i]? ≠ some true) :
    depthFirst next fresh (i :: todo) = depthFirst next fresh todo := by
  rw [depthFirst, visitAll, dif_neg h]
  rfl

theorem freshAfter_cons_of_not_fresh (h : fresh[i]? ≠ some true) :
    freshAfter next fresh (i :: todo) = freshAfter next fresh todo := by
  rw [freshAfter, visitAll, dif_neg h]
  rfl

/-- What is fresh after a visit was fresh before it. -/
theorem fresh_of_freshAfter (h : (freshAfter next fresh todo)[j]? = some true) :
    fresh[j]? = some true := by
  rw [freshAfter] at h
  fun_induction visitAll next fresh todo with
  | case1 fresh => exact h
  | case2 fresh i todo hi below hbelow behind ihbelow ihbehind =>
    exact fresh_of_setIfInBounds (ihbelow (ihbehind h))
  | case3 fresh i todo hi ih => exact ih h

/-- Visiting one list after another is visiting the second with what the first left. -/
theorem visit_append (todo behind : List Nat) :
    depthFirst next fresh (todo ++ behind) =
        depthFirst next fresh todo ++ depthFirst next (freshAfter next fresh todo) behind ∧
      freshAfter next fresh (todo ++ behind) =
        freshAfter next (freshAfter next fresh todo) behind := by
  induction todo generalizing fresh with
  | nil => simp
  | cons i todo ih =>
    rw [List.cons_append]
    by_cases h : fresh[i]? = some true
    · obtain ⟨hfound, hleft⟩ := @ih (freshAfter next (fresh.setIfInBounds i false) (next i))
      rw [depthFirst_cons_of_fresh h, depthFirst_cons_of_fresh h, freshAfter_cons_of_fresh h,
        freshAfter_cons_of_fresh h, hfound, hleft]
      simp
    · rw [depthFirst_cons_of_not_fresh h, depthFirst_cons_of_not_fresh h,
        freshAfter_cons_of_not_fresh h, freshAfter_cons_of_not_fresh h]
      exact ih

/-- States that are not fresh can be left out of a visit. -/
theorem depthFirst_filter {keep : Nat → Bool}
    (hkeep : ∀ j ∈ todo, keep j = false → fresh[j]? ≠ some true) :
    depthFirst next fresh (todo.filter keep) = depthFirst next fresh todo ∧
      freshAfter next fresh (todo.filter keep) = freshAfter next fresh todo := by
  induction todo generalizing fresh with
  | nil => exact ⟨rfl, rfl⟩
  | cons i todo ih =>
    obtain ⟨hi, htodo⟩ := List.forall_mem_cons.mp hkeep
    by_cases h : fresh[i]? = some true
    · -- A state found on the way only makes fewer states fresh.
      have hkept : keep i = true := by
        by_contra hnot
        exact hi (Bool.eq_false_iff.mpr hnot) h
      have hlater : ∀ j ∈ todo, keep j = false →
          (freshAfter next (fresh.setIfInBounds i false) (next i))[j]? ≠ some true := by
        intro j hj hnot hfresh
        exact htodo j hj hnot (fresh_of_setIfInBounds (fresh_of_freshAfter hfresh))
      obtain ⟨hfound, hleft⟩ := ih hlater
      rw [List.filter_cons_of_pos hkept, depthFirst_cons_of_fresh h, depthFirst_cons_of_fresh h,
        freshAfter_cons_of_fresh h, freshAfter_cons_of_fresh h, hfound, hleft]
      exact ⟨rfl, rfl⟩
    · rw [depthFirst_cons_of_not_fresh h, freshAfter_cons_of_not_fresh h]
      cases hkept : keep i with
      | false =>
        rw [List.filter_cons_of_neg (by simp [hkept])]
        exact ih htodo
      | true =>
        rw [List.filter_cons_of_pos hkept, depthFirst_cons_of_not_fresh h,
          freshAfter_cons_of_not_fresh h]
        exact ih htodo

/-- A stack that is never thinned out finds what the recursion finds. -/
theorem preorder_eq_depthFirst (next : Nat → List Nat) (fresh : Array Bool) (stack : List Nat) :
    preorder next fresh stack = depthFirst next fresh stack := by
  fun_induction preorder next fresh stack with
  | case1 => rw [depthFirst_nil]
  | case2 fresh i stack hi ih =>
    rw [ih, depthFirst_cons_of_fresh hi, (visit_append (next i) stack).1]
  | case3 fresh i stack hi ih => rw [ih, depthFirst_cons_of_not_fresh hi]

end Recursion

/-! ## With a stack -/

namespace StackSearch

variable {next : Nat → List Nat} {s t : StackSearch}

/-- What a round can do. -/
theorem round_cases (h : s.round next = some t) :
    ∃ i stack, s.stack = i :: stack ∧
      (s.fresh[i]? = some true ∧
          t = ⟨s.fresh.setIfInBounds i false, s.found ++ [i],
            (next i).filter (fun j => (s.fresh.setIfInBounds i false)[j]? = some true) ++ stack⟩ ∨
        s.fresh[i]? ≠ some true ∧ t = ⟨s.fresh, s.found, stack⟩) := by
  rw [round] at h
  split at h
  · cases h
  · rename_i i stack hstack
    refine ⟨i, stack, hstack, ?_⟩
    split at h
    · rename_i hi
      exact Or.inl ⟨hi, (Option.some.inj h).symm⟩
    · rename_i hi
      exact Or.inr ⟨hi, (Option.some.inj h).symm⟩

/-- The loop goes on exactly as long as something is on the stack. -/
theorem round_eq_none_iff : s.round next = none ↔ s.stack = [] := by
  rw [round]
  split
  · rename_i hstack
    exact iff_of_true rfl hstack
  · rename_i i stack hstack
    refine iff_of_false ?_ (by simp [hstack])
    split <;> simp

/-- A round marks a state, or takes one from the stack without a mark. -/
theorem measure_lt_of_round (h : s.round next = some t) :
    Prod.Lex (· < ·) (· < ·) (t.fresh.count true, t.stack.length)
      (s.fresh.count true, s.stack.length) := by
  obtain ⟨i, stack, hstack, ⟨hi, rfl⟩ | ⟨-, rfl⟩⟩ := round_cases h
  · exact Prod.Lex.left _ _ (count_fresh_lt hi)
  · rw [hstack]
    exact Prod.Lex.right _ (Nat.lt_succ_self _)

/-- Rounds cannot follow each other without end. -/
theorem wellFounded_round (next : Nat → List Nat) :
    WellFounded fun t s : StackSearch => s.round next = some t :=
  Subrelation.wf measure_lt_of_round
    (InvImage.wf (fun s : StackSearch => (s.fresh.count true, s.stack.length))
      (WellFounded.prod_lex Nat.lt_wfRel.wf Nat.lt_wfRel.wf))

/-- What the recursion finds from the stack. -/
def ahead (next : Nat → List Nat) (s : StackSearch) : List Nat :=
  depthFirst next s.fresh s.stack

/-- A round finds the next state that the recursion finds, or none, and leaves the rest to
be found.  It pushes no more than the successors of the state it finds. -/
theorem ahead_of_round (h : s.round next = some t) :
    (∃ i, s.ahead next = i :: t.ahead next ∧ t.found = s.found ++ [i] ∧
        t.stack.length < s.stack.length + (next i).length) ∨
      s.ahead next = t.ahead next ∧ t.found = s.found ∧ t.stack.length < s.stack.length := by
  obtain ⟨i, stack, hstack, ⟨hi, rfl⟩ | ⟨hi, rfl⟩⟩ := round_cases h
  · refine Or.inl ⟨i, ?_, rfl, ?_⟩
    · -- A successor left off the stack is not fresh, so the recursion passes it over.
      rw [ahead, ahead, hstack, depthFirst_cons_of_fresh hi, (visit_append _ stack).1]
      obtain ⟨hfound, hleft⟩ := @depthFirst_filter next (s.fresh.setIfInBounds i false) (next i)
        (fun j => (s.fresh.setIfInBounds i false)[j]? = some true)
        fun j _ hj => of_decide_eq_false hj
      rw [hfound, hleft]
    · have hlength := List.length_filter_le
        (fun j => (s.fresh.setIfInBounds i false)[j]? = some true) (next i)
      rw [hstack, List.length_append, List.length_cons]
      omega
  · refine Or.inr ⟨?_, rfl, ?_⟩
    · rw [ahead, ahead, hstack, depthFirst_cons_of_not_fresh hi]
    · rw [hstack]
      exact Nat.lt_succ_self _

/-- The loop ends with what the recursion finds, after at most one round for every state on
the stack and for every edge of a state found. -/
theorem exists_rounds (next : Nat → List Nat) (s : StackSearch) :
    ∃ n t, s.rounds next n = some t ∧ t.stack = [] ∧ t.found = s.found ++ s.ahead next ∧
      n ≤ s.stack.length + ((s.ahead next).flatMap next).length := by
  induction s using (wellFounded_round next).induction with
  | _ s ih =>
    cases hround : s.round next with
    | none =>
      have hstack := round_eq_none_iff.mp hround
      refine ⟨0, s, rfl, hstack, ?_, Nat.zero_le _⟩
      rw [ahead, hstack, depthFirst_nil, List.append_nil]
    | some t =>
      obtain ⟨n, u, hrounds, hempty, hfound, hle⟩ := ih t hround
      refine ⟨n + 1, u, ?_, hempty, ?_, ?_⟩
      · rw [rounds, hround]
        exact hrounds
      · rcases ahead_of_round hround with ⟨i, hahead, hnew, -⟩ | ⟨hahead, hnew, -⟩
        · rw [hfound, hnew, hahead, List.append_assoc]
          rfl
        · rw [hfound, hnew, hahead]
      · rcases ahead_of_round hround with ⟨i, hahead, -, hlt⟩ | ⟨hahead, -, hlt⟩
        · rw [hahead, List.flatMap_cons, List.length_append]
          omega
        · rw [hahead]
          omega

end StackSearch

/-! ## The search of a graph -/

namespace Graph

variable {g : Graph}

/-- The search finds what the recursion finds. -/
theorem reachableFrom_eq_depthFirst (g : Graph) (roots : List Nat) :
    g.reachableFrom roots = depthFirst g.successors g.allFresh roots :=
  preorder_eq_depthFirst g.successors g.allFresh roots

/-- Whatever ids the roots are, a search finds the states of the graph that one of them
leads to. -/
theorem mem_reachableFrom_iff_lt {roots : List Nat} {i : Nat} (hclosed : g.Closed) :
    i ∈ g.reachableFrom roots ↔ i < g.size ∧ ∃ r ∈ roots, Leads g.successors r i := by
  constructor
  · intro hi
    exact ⟨lt_size_of_mem_reachableFrom hi, exists_leads_of_mem_preorder hi⟩
  · rintro ⟨hlt, r, hr, hleads⟩
    have hfound : r < g.size → i ∈ g.reachableFrom roots := by
      intro hroot
      clear hlt
      induction hleads with
      | refl => exact mem_reachableFrom_of_mem hr hroot
      | tail _ hstep ih =>
        obtain ⟨e, he, rfl⟩ := mem_successors_iff.mp hstep
        exact isPart_reachableFrom hclosed _ ih e he
    rcases hleads.cases_head with rfl | ⟨j, hstep, -⟩
    · exact hfound hlt
    · obtain ⟨e, he, -⟩ := mem_successors_iff.mp hstep
      exact hfound (lt_size_of_mem_edges he)

/-- From any roots the loop ends, after at most one round for every root and for every edge
of a state found.  What it found, in order, is the search of the library and what the
recursion finds.  It holds, once each, the states of the graph that a root leads to. -/
theorem reachableFrom_is_depthFirst (hclosed : g.Closed) (roots : List Nat) :
    (∃ n s, (g.stackSearch roots).rounds g.successors n = some s ∧ s.stack = [] ∧
      s.found = g.reachableFrom roots ∧
      n ≤ roots.length + ((g.reachableFrom roots).flatMap g.successors).length) ∧
    g.reachableFrom roots = depthFirst g.successors g.allFresh roots ∧
    (g.reachableFrom roots).Nodup ∧
    ∀ i, i ∈ g.reachableFrom roots ↔ i < g.size ∧ ∃ r ∈ roots, Leads g.successors r i := by
  have hahead : (g.stackSearch roots).ahead g.successors = g.reachableFrom roots :=
    (reachableFrom_eq_depthFirst g roots).symm
  obtain ⟨n, s, hrounds, hempty, hfound, hle⟩ :=
    StackSearch.exists_rounds g.successors (g.stackSearch roots)
  rw [hahead] at hfound hle
  exact ⟨⟨n, s, hrounds, hempty, hfound, hle⟩, reachableFrom_eq_depthFirst g roots,
    nodup_reachableFrom, fun i => mem_reachableFrom_iff_lt hclosed⟩

/-- Three states that lead to each other, one of them also to itself, and one that nothing
leads to. -/
def crossing : Graph :=
  ⟨#[⟨false, [⟨CodeSet.single 97, 1⟩, ⟨CodeSet.single 98, 2⟩]⟩,
    ⟨true, [⟨CodeSet.single 97, 2⟩, ⟨CodeSet.single 98, 1⟩]⟩,
    ⟨false, [⟨CodeSet.single 97, 0⟩, ⟨CodeSet.silent, 1⟩]⟩,
    ⟨true, [⟨CodeSet.single 97, 0⟩]⟩]⟩

theorem reachableFrom_crossing : crossing.reachableFrom [0, 2, 0] = [0, 1, 2] := by
  cbv

/-- The third state is pushed as a root and from both others, and found once. -/
theorem reachableFrom_is_depthFirst_crossing :
    crossing.Closed ∧
    (∃ n s, (crossing.stackSearch [0, 2, 0]).rounds crossing.successors n = some s ∧
      s.stack = [] ∧ s.found = [0, 1, 2] ∧ n ≤ 9) ∧
    depthFirst crossing.successors crossing.allFresh [0, 2, 0] = [0, 1, 2] ∧
    ¬∃ r ∈ [0, 2, 0], Leads crossing.successors r 3 := by
  have hclosed : crossing.Closed := by decide
  obtain ⟨hloop, heq, -, hmem⟩ := reachableFrom_is_depthFirst hclosed [0, 2, 0]
  rw [reachableFrom_crossing] at hloop heq hmem
  refine ⟨hclosed, hloop, heq.symm, fun hleads => ?_⟩
  have hfound := (hmem 3).mpr ⟨by decide, hleads⟩
  exact absurd hfound (by decide)

end Graph
end Munch

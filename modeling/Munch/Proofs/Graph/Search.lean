import Mathlib.Data.List.Sort
import Mathlib.Logic.Relation
import Munch.Graph.Search
import Munch.Proofs.Graph.Path

/-!
# What a search finds

A search finds every state that its roots lead to, finds it once, and finds
nothing else.  For searches along silent edges this is the closure under steps
without input.

Main results:

- Theorem {lit}`mem_preorder_iff`: the states found are those the stack leads to.
- Theorem {lit}`nodup_preorder`: no state is found twice.
- Theorem {lit}`Graph.mem_reachableFrom_iff`: reachability in a closed graph.
- Theorem {lit}`Graph.mem_silentClosure_iff`: the closure along paths of no input.
-/

namespace Munch

/-- One can come from a state to another along listed successors. -/
def Leads (next : Nat → List Nat) : Nat → Nat → Prop :=
  Relation.ReflTransGen fun i j => j ∈ next i

section Preorder

variable {next : Nat → List Nat} {fresh : Array Bool} {stack : List Nat} {i j r : Nat}

/-- Marking a state leaves the other fresh ones fresh. -/
theorem fresh_of_ne (hj : fresh[j]? = some true) (hne : j ≠ i) :
    (fresh.setIfInBounds i false)[j]? = some true := by
  rw [Array.getElem?_setIfInBounds_ne hne.symm]
  exact hj

/-- A fresh state on the stack is found. -/
theorem mem_preorder_of_mem_stack (hr : r ∈ stack) (hfresh : fresh[r]? = some true) :
    r ∈ preorder next fresh stack := by
  fun_induction preorder next fresh stack with
  | case1 => cases hr
  | case2 fresh i stack hi ih =>
    by_cases hri : r = i
    · exact List.mem_cons.mpr (Or.inl hri)
    · have hr' : r ∈ stack := (List.mem_cons.mp hr).resolve_left hri
      exact List.mem_cons_of_mem _ (ih (List.mem_append_right _ hr') (fresh_of_ne hfresh hri))
  | case3 fresh i stack hi ih =>
    rcases List.mem_cons.mp hr with rfl | hr
    · exact absurd hfresh hi
    · exact ih hr hfresh

/-- A fresh successor of a state found is found. -/
theorem mem_preorder_of_next (hi : i ∈ preorder next fresh stack) (hj : j ∈ next i)
    (hfresh : fresh[j]? = some true) : j ∈ preorder next fresh stack := by
  fun_induction preorder next fresh stack with
  | case1 => cases hi
  | case2 fresh k stack hk ih =>
    by_cases hjk : j = k
    · exact List.mem_cons.mpr (Or.inl hjk)
    · refine List.mem_cons_of_mem _ ?_
      have hfresh' := fresh_of_ne hfresh hjk
      rcases List.mem_cons.mp hi with rfl | hi
      · exact mem_preorder_of_mem_stack (List.mem_append_left _ hj) hfresh'
      · exact ih hi hfresh'
  | case3 fresh k stack hk ih => exact ih hi hfresh

/-- Some state of the stack leads to every state found. -/
theorem exists_leads_of_mem_preorder (hi : i ∈ preorder next fresh stack) :
    ∃ r ∈ stack, Leads next r i := by
  fun_induction preorder next fresh stack with
  | case1 => cases hi
  | case2 fresh k stack hk ih =>
    rcases List.mem_cons.mp hi with rfl | hi
    · exact ⟨i, List.mem_cons_self, Relation.ReflTransGen.refl⟩
    · obtain ⟨r, hr, hleads⟩ := ih hi
      rcases List.mem_append.mp hr with hr | hr
      · exact ⟨k, List.mem_cons_self, Relation.ReflTransGen.head hr hleads⟩
      · exact ⟨r, List.mem_cons_of_mem _ hr, hleads⟩
  | case3 fresh k stack hk ih =>
    obtain ⟨r, hr, hleads⟩ := ih hi
    exact ⟨r, List.mem_cons_of_mem _ hr, hleads⟩

/-- No state is found twice. -/
theorem nodup_preorder : (preorder next fresh stack).Nodup := by
  fun_induction preorder next fresh stack with
  | case1 => exact List.nodup_nil
  | case2 fresh k stack hk ih =>
    refine List.nodup_cons.mpr ⟨fun hmem => ?_, ih⟩
    have hfresh := fresh_of_mem_preorder hmem
    obtain ⟨hlt, -⟩ := Array.getElem?_eq_some_iff.mp hk
    rw [Array.getElem?_setIfInBounds_self_of_lt hlt] at hfresh
    cases hfresh
  | case3 fresh k stack hk ih => exact ih

/-- The states found are those the stack leads to, if it leads to fresh ones only. -/
theorem mem_preorder_iff (hstack : ∀ r ∈ stack, ∀ j, Leads next r j → fresh[j]? = some true) :
    i ∈ preorder next fresh stack ↔ ∃ r ∈ stack, Leads next r i := by
  constructor
  · exact exists_leads_of_mem_preorder
  · rintro ⟨r, hr, hleads⟩
    have hfresh := hstack r hr
    induction hleads with
    | refl => exact mem_preorder_of_mem_stack hr (hfresh r Relation.ReflTransGen.refl)
    | tail hinit hstep ih => exact mem_preorder_of_next ih hstep (hfresh _ (hinit.tail hstep))

end Preorder

namespace Graph

variable {g : Graph} {roots : List Nat} {i j : Nat}

/-- Every state is fresh before the search. -/
theorem allFresh_of_lt (hi : i < g.size) : g.allFresh[i]? = some true := by
  rw [allFresh, Array.getElem?_replicate, if_pos hi]

/-- Successors that stay in the graph lead to fresh states only. -/
theorem fresh_of_leads {next : Nat → List Nat}
    (hnext : ∀ i < g.size, ∀ j ∈ next i, j < g.size) (hi : i < g.size) (hleads : Leads next i j) :
    g.allFresh[j]? = some true := by
  have hlt : j < g.size := by
    induction hleads with
    | refl => exact hi
    | tail _ hstep ih => exact hnext _ ih _ hstep
  exact allFresh_of_lt hlt

/-! ## Along all edges -/

/-- The successors are the targets of the edges. -/
theorem mem_successors_iff : j ∈ g.successors i ↔ ∃ e ∈ g.edges i, e.target = j :=
  List.mem_map

/-- The successors in a closed graph are its states. -/
theorem Closed.successors_lt (hclosed : g.Closed) :
    ∀ i < g.size, ∀ j ∈ g.successors i, j < g.size := by
  intro i _ j hj
  obtain ⟨e, he, rfl⟩ := mem_successors_iff.mp hj
  exact hclosed i e he

/-- In a closed graph the states found from the roots are those the roots lead to. -/
theorem mem_reachableFrom_iff (hclosed : g.Closed) (hroots : ∀ r ∈ roots, r < g.size) :
    i ∈ g.reachableFrom roots ↔ ∃ r ∈ roots, Leads g.successors r i :=
  mem_preorder_iff fun r hr _ hleads => fresh_of_leads hclosed.successors_lt (hroots r hr) hleads

/-- The search from a root meets exactly what the root leads to. -/
theorem mem_reachable_iff {root : Nat} (hclosed : g.Closed) (hroot : root < g.size) :
    i ∈ g.reachable root ↔ Leads g.successors root i := by
  have hroots : ∀ r ∈ [root], r < g.size := by
    intro r hr
    rwa [List.mem_singleton.mp hr]
  rw [reachable, mem_reachableFrom_iff hclosed hroots]
  simp only [List.mem_singleton, exists_eq_left]

/-- No state is met twice. -/
theorem nodup_reachableFrom : (g.reachableFrom roots).Nodup :=
  nodup_preorder

/-- No state is met twice from one root. -/
theorem nodup_reachable {root : Nat} : (g.reachable root).Nodup :=
  nodup_preorder

/-- A root is met. -/
theorem mem_reachableFrom_of_mem (hi : i ∈ roots) (hlt : i < g.size) :
    i ∈ g.reachableFrom roots :=
  mem_preorder_of_mem_stack hi (allFresh_of_lt hlt)

/-- What can be reached is a closed part. -/
theorem isPart_reachableFrom (hclosed : g.Closed) :
    g.IsPart {i | i ∈ g.reachableFrom roots} := by
  intro i hi e he
  exact mem_preorder_of_next hi (mem_successors_iff.mpr ⟨e, he, rfl⟩)
    (allFresh_of_lt (hclosed i e he))

/-- A path leads to its end. -/
theorem Path.leads {w : List Int} (hpath : g.Path i w j) : Leads g.successors i j := by
  induction hpath with
  | nil i => exact Relation.ReflTransGen.refl
  | silent he _ _ ih => exact Relation.ReflTransGen.head (mem_successors_iff.mpr ⟨_, he, rfl⟩) ih
  | read he _ _ _ ih => exact Relation.ReflTransGen.head (mem_successors_iff.mpr ⟨_, he, rfl⟩) ih

/-! ## Along silent edges -/

/-- The silent successors are the targets of the edges with the silent code. -/
theorem mem_silentSuccessors_iff :
    j ∈ g.silentSuccessors i ↔ ∃ e ∈ g.edges i, Code.silent ∈ e.label ∧ e.target = j := by
  simp only [silentSuccessors, List.mem_map, List.mem_filter, CodeSet.mem_iff, and_assoc]

/-- Following silent edges is taking a path of no input. -/
theorem leads_silentSuccessors_iff : Leads g.silentSuccessors i j ↔ g.Path i [] j := by
  constructor
  · intro hleads
    induction hleads using Relation.ReflTransGen.head_induction_on with
    | refl => exact Path.nil j
    | head hstep _ ih =>
      obtain ⟨e, he, hsilent, rfl⟩ := mem_silentSuccessors_iff.mp hstep
      exact Path.silent he hsilent ih
  · intro hpath
    generalize hw : ([] : List Int) = w at hpath
    induction hpath with
    | nil i => exact Relation.ReflTransGen.refl
    | silent he hsilent _ ih =>
      exact Relation.ReflTransGen.head (mem_silentSuccessors_iff.mpr ⟨_, he, hsilent, rfl⟩) (ih hw)
    | read => cases hw

/-- In any graph, what the silent closure of some states holds is led to by one of them. -/
theorem exists_path_of_mem_silentClosure (hi : i ∈ g.silentClosure roots) :
    ∃ r ∈ roots, g.Path r [] i := by
  obtain ⟨r, hr, hleads⟩ := exists_leads_of_mem_preorder (List.mem_mergeSort.mp hi)
  exact ⟨r, hr, leads_silentSuccessors_iff.mp hleads⟩

/-- The silent closure of some states holds what they lead to without input. -/
theorem mem_silentClosure_iff (hclosed : g.Closed) (hroots : ∀ r ∈ roots, r < g.size) :
    i ∈ g.silentClosure roots ↔ ∃ r ∈ roots, g.Path r [] i := by
  have hnext : ∀ i < g.size, ∀ j ∈ g.silentSuccessors i, j < g.size := by
    intro i _ j hj
    obtain ⟨e, he, -, rfl⟩ := mem_silentSuccessors_iff.mp hj
    exact hclosed i e he
  have hfound := mem_preorder_iff (i := i) fun r hr _ hleads =>
    fresh_of_leads hnext (hroots r hr) hleads
  rw [silentClosure, List.mem_mergeSort, hfound]
  simp only [leads_silentSuccessors_iff]

/-- A silent closure has states of the graph only. -/
theorem lt_size_of_mem_silentClosure (hi : i ∈ g.silentClosure roots) : i < g.size := by
  have hfresh := fresh_of_mem_preorder (List.mem_mergeSort.mp hi)
  obtain ⟨hlt, -⟩ := Array.getElem?_eq_some_iff.mp hfresh
  simpa [allFresh] using hlt

/-- A silent closure is a strictly increasing list. -/
theorem pairwise_silentClosure : (g.silentClosure roots).Pairwise (· < ·) := by
  have hsorted : (g.silentClosure roots).Pairwise (· ≤ ·) :=
    List.pairwise_mergeSort' (· ≤ ·) _
  have hnodup : (g.silentClosure roots).Nodup :=
    (List.mergeSort_perm _ _).nodup_iff.mpr nodup_preorder
  exact List.Pairwise.imp₂ (fun _ _ hle hne => Nat.lt_of_le_of_ne hle hne) hsorted hnodup

end Graph
end Munch

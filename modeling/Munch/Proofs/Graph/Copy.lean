import Munch.Graph.Copy
import Munch.Proofs.Graph.Search

/-!
# Copies are isomorphic

The copy of what can be reached from some roots is that part of the graph under
new names.  The names are consecutive, so nothing that was in the target graph is
touched and no number is left over.

Main results:

- Theorem {lit}`Graph.copyInto_name_getElem`: the numbers are given in the order of
  the search.
- Theorem {lit}`Graph.embeds_copyInto`: the copy has the edges of the original.
- Theorem {lit}`Graph.accepts_copy_iff`: a copy by itself accepts the same words.
-/

namespace Munch
namespace Graph

/-! ## Numbers -/

section Numbers

variable {order : List Nat} {base i k : Nat} {names : Array (Option Nat)}

/-- Writing the numbers of a list into an array. -/
def writeNumbers (names : Array (Option Nat)) (entries : List (Nat × Nat)) : Array (Option Nat) :=
  entries.foldl (fun names entry => names.setIfInBounds entry.1 (some entry.2)) names

/-- A state outside the list keeps what was written before. -/
theorem getElem?_writeNumbers_of_not_mem (names : Array (Option Nat)) (base : Nat)
    (hi : i ∉ order) :
    (writeNumbers names (order.zipIdx base))[i]? = names[i]? := by
  induction order generalizing base names with
  | nil => rfl
  | cons j order ih =>
    obtain ⟨hij, hrest⟩ := not_or.mp (mt List.mem_cons.mpr hi)
    rw [List.zipIdx_cons, writeNumbers, List.foldl_cons]
    exact (ih _ _ hrest).trans (Array.getElem?_setIfInBounds_ne (Ne.symm hij))

/-- The state at a place of the list gets the number of that place. -/
theorem getElem?_writeNumbers (base : Nat) (hnodup : order.Nodup)
    (hlt : ∀ j ∈ order, j < names.size) (hk : order[k]? = some i) :
    (writeNumbers names (order.zipIdx base))[i]? = some (some (base + k)) := by
  induction order generalizing base k names with
  | nil => cases hk
  | cons j order ih =>
    obtain ⟨hj, hnodup⟩ := List.nodup_cons.mp hnodup
    rw [List.zipIdx_cons, writeNumbers, List.foldl_cons]
    cases k with
    | zero =>
      obtain rfl : j = i := Option.some.inj hk
      have hrest :=
        getElem?_writeNumbers_of_not_mem (names.setIfInBounds j (some base)) (base + 1) hj
      exact hrest.trans (Array.getElem?_setIfInBounds_self_of_lt (hlt j List.mem_cons_self))
    | succ k =>
      have hlt' : ∀ x ∈ order, x < (names.setIfInBounds j (some base)).size := by
        intro x hx
        rw [Array.size_setIfInBounds]
        exact hlt x (List.mem_cons_of_mem _ hx)
      have hrest := ih (base + 1) hnodup hlt' hk
      rw [show base + 1 + k = base + (k + 1) by omega] at hrest
      exact hrest

end Numbers

/-! ## The copy -/

variable {g : Graph} (dest : Graph) {roots : List Nat} {i j k root : Nat}

/-- The state found at some place of the search is given the number of that place. -/
theorem getElem?_numbering (base : Nat) (hk : (g.reachableFrom roots)[k]? = some i) :
    (numbering g.size base (g.reachableFrom roots))[i]? = some (some (base + k)) := by
  have hlt : ∀ j ∈ g.reachableFrom roots,
      j < (Array.replicate g.size (none : Option Nat)).size := by
    intro j hj
    rw [Array.size_replicate]
    exact lt_size_of_mem_reachableFrom hj
  exact getElem?_writeNumbers base nodup_reachableFrom hlt hk

/-- The new name of the state found at some place of the search. -/
theorem copyInto_name_of_getElem? (hk : (g.reachableFrom roots)[k]? = some i) :
    (g.copyInto roots dest).2 i = dest.size + k := by
  simp only [copyInto, renamed, getElem?_numbering dest.size hk, Option.getD_some]

/-- The numbers are given in the order of the search. -/
theorem copyInto_name_getElem (hk : k < (g.reachableFrom roots).length) :
    (g.copyInto roots dest).2 (g.reachableFrom roots)[k] = dest.size + k :=
  copyInto_name_of_getElem? dest (List.getElem?_eq_getElem hk)

/-- Every state found has a new name in the range of the copies. -/
theorem exists_copyInto_name_eq (hi : i ∈ g.reachableFrom roots) :
    ∃ k, (g.reachableFrom roots)[k]? = some i ∧ (g.copyInto roots dest).2 i = dest.size + k := by
  obtain ⟨k, hk⟩ := List.mem_iff_getElem?.mp hi
  exact ⟨k, hk, copyInto_name_of_getElem? dest hk⟩

/-- Different states have different names. -/
theorem injOn_copyInto_name :
    Set.InjOn (g.copyInto roots dest).2 {i | i ∈ g.reachableFrom roots} := by
  intro i hi j hj hname
  obtain ⟨k, hk, hik⟩ := exists_copyInto_name_eq dest hi
  obtain ⟨l, hl, hjl⟩ := exists_copyInto_name_eq dest hj
  obtain rfl : k = l := by omega
  exact Option.some.inj (hk.symm.trans hl)

theorem size_le_copyInto_name (hi : i ∈ g.reachableFrom roots) :
    dest.size ≤ (g.copyInto roots dest).2 i := by
  obtain ⟨k, -, hname⟩ := exists_copyInto_name_eq dest hi
  omega

theorem copyInto_name_lt_size (hi : i ∈ g.reachableFrom roots) :
    (g.copyInto roots dest).2 i < (g.copyInto roots dest).1.size := by
  obtain ⟨k, hk, hname⟩ := exists_copyInto_name_eq dest hi
  obtain ⟨hlt, -⟩ := List.getElem?_eq_some_iff.mp hk
  rw [hname, size_copyInto]
  omega

/-- Every state of the copy is the copy of a state found. -/
theorem exists_eq_copyInto_name (hlow : dest.size ≤ j)
    (hhigh : j < (g.copyInto roots dest).1.size) :
    ∃ i ∈ g.reachableFrom roots, (g.copyInto roots dest).2 i = j := by
  rw [size_copyInto] at hhigh
  have hk : j - dest.size < (g.reachableFrom roots).length := by omega
  refine ⟨(g.reachableFrom roots)[j - dest.size], List.getElem_mem hk, ?_⟩
  rw [copyInto_name_getElem dest hk]
  omega

/-- The copy of a state is the state with its edges led to the copies. -/
theorem getElem?_copyInto_name (hi : i ∈ g.reachableFrom roots) :
    (g.copyInto roots dest).1.states[(g.copyInto roots dest).2 i]? =
      (g.states[i]?).map fun s =>
        { s with edges := s.edges.map fun e => ⟨e.label, (g.copyInto roots dest).2 e.target⟩ } := by
  obtain ⟨k, hk, hname⟩ := exists_copyInto_name_eq dest hi
  have hlt : i < g.states.size := lt_size_of_mem_reachableFrom hi
  rw [hname]
  have hright : dest.states.size ≤ dest.size + k := Nat.le_add_right _ _
  simp only [copyInto, Array.getElem?_append_right hright]
  simp [size, hk, hlt, renameState]

variable {dest}

/-- The states that were there keep their edges. -/
theorem edges_copyInto_of_lt (hi : i < dest.size) :
    (g.copyInto roots dest).1.edges i = dest.edges i := by
  have hstate := state?_copyInto g roots dest hi
  rw [state?, state?] at hstate
  rw [edges, edges, hstate]

theorem isFinal_copyInto_of_lt (hi : i < dest.size) :
    (g.copyInto roots dest).1.isFinal i = dest.isFinal i := by
  have hstate := state?_copyInto g roots dest hi
  rw [state?, state?] at hstate
  rw [isFinal, isFinal, hstate]

theorem edges_copyInto_name (hi : i ∈ g.reachableFrom roots) :
    (g.copyInto roots dest).1.edges ((g.copyInto roots dest).2 i) =
      (g.edges i).map fun e => ⟨e.label, (g.copyInto roots dest).2 e.target⟩ := by
  rw [edges, getElem?_copyInto_name dest hi, edges]
  cases g.states[i]? with
  | none => rfl
  | some s => rfl

theorem isFinal_copyInto_name (hi : i ∈ g.reachableFrom roots) :
    (g.copyInto roots dest).1.isFinal ((g.copyInto roots dest).2 i) = g.isFinal i := by
  rw [isFinal, getElem?_copyInto_name dest hi, isFinal]
  cases g.states[i]? with
  | none => rfl
  | some s => rfl

/-- The copy has the edges of the original. -/
theorem embeds_copyInto (dest : Graph) (roots : List Nat) (hclosed : g.Closed) :
    Embeds g (g.copyInto roots dest).1 (g.copyInto roots dest).2
      {i | i ∈ g.reachableFrom roots} where
  closed := isPart_reachableFrom hclosed
  edges_eq _ hi := edges_copyInto_name hi

/-- The copy of a state leads to the copies of what the state leads to. -/
theorem leads_copyInto_name (dest : Graph) (hclosed : g.Closed) (hi : i ∈ g.reachableFrom roots)
    (hleads : Leads g.successors i j) :
    Leads (g.copyInto roots dest).1.successors ((g.copyInto roots dest).2 i)
      ((g.copyInto roots dest).2 j) := by
  induction hleads using Relation.ReflTransGen.head_induction_on with
  | refl => exact Relation.ReflTransGen.refl
  | head hstep _ ih =>
    obtain ⟨e, he, rfl⟩ := mem_successors_iff.mp hstep
    refine Relation.ReflTransGen.head ?_ (ih (isPart_reachableFrom hclosed _ hi e he))
    refine mem_successors_iff.mpr ⟨⟨e.label, (g.copyInto roots dest).2 e.target⟩, ?_, rfl⟩
    rw [edges_copyInto_name hi]
    exact List.mem_map_of_mem he

/-- A copied edge leads to a copy. -/
theorem closed_copyInto (hclosed : g.Closed) (hdest : dest.Closed) :
    (g.copyInto roots dest).1.Closed := by
  intro j e he
  by_cases hlow : j < dest.size
  · rw [edges_copyInto_of_lt hlow] at he
    rw [size_copyInto]
    exact Nat.lt_add_right _ (hdest j e he)
  · by_cases hhigh : j < (g.copyInto roots dest).1.size
    · obtain ⟨i, hi, rfl⟩ := exists_eq_copyInto_name dest (Nat.not_lt.mp hlow) hhigh
      rw [edges_copyInto_name hi] at he
      obtain ⟨f, hf, rfl⟩ := List.mem_map.mp he
      exact copyInto_name_lt_size dest (isPart_reachableFrom hclosed i hi f hf)
    · rw [edges_eq_nil_of_size_le (Nat.not_lt.mp hhigh)] at he
      cases he

/-! ## A copy by itself -/

theorem closed_empty : empty.Closed := by
  intro i e he
  rw [edges_eq_nil_of_size_le (Nat.zero_le i)] at he
  cases he

theorem closed_copy (hclosed : g.Closed) : (g.copy root).Closed :=
  closed_copyInto hclosed closed_empty

/-- The root of a copy is its first state. -/
theorem copyInto_name_root (hroot : root < g.size) : (g.copyInto [root] empty).2 root = 0 := by
  have hfirst : (g.reachableFrom [root])[0]? = some root := by
    rw [reachableFrom, preorder, dif_pos (allFresh_of_lt hroot)]
    rfl
  exact copyInto_name_of_getElem? empty hfirst

theorem mem_reachableFrom_root (hroot : root < g.size) : root ∈ g.reachableFrom [root] :=
  mem_reachableFrom_of_mem List.mem_cons_self hroot

theorem size_copy_pos (hroot : root < g.size) : 0 < (g.copy root).size := by
  have hlt := copyInto_name_lt_size empty (mem_reachableFrom_root hroot)
  exact Nat.lt_of_le_of_lt (Nat.zero_le _) hlt

/-- A copy by itself accepts the same words. -/
theorem accepts_copy_iff {w : List Int} (hclosed : g.Closed) (hroot : root < g.size) :
    (g.copy root).Accepts 0 w ↔ g.Accepts root w := by
  have hiff := (embeds_copyInto empty [root] hclosed).accepts_iff (w := w)
    (fun i hi => isFinal_copyInto_name hi) (mem_reachableFrom_root hroot)
  rwa [copyInto_name_root hroot] at hiff

/-- Everything in a copy can be reached from its root. -/
theorem mem_reachable_copy (hclosed : g.Closed) (hroot : root < g.size)
    (hj : j < (g.copy root).size) : j ∈ (g.copy root).reachable 0 := by
  obtain ⟨i, hi, rfl⟩ := exists_eq_copyInto_name empty (Nat.zero_le j) hj
  rw [mem_reachable_iff (closed_copy hclosed) (size_copy_pos hroot), ← copyInto_name_root hroot]
  exact leads_copyInto_name empty hclosed (mem_reachableFrom_root hroot)
    ((mem_reachable_iff hclosed hroot).mp hi)

theorem size_copy : (g.copy root).size = (g.reachable root).length := by
  rw [copy, size_copyInto]
  exact Nat.zero_add _

/-- A copy of a deterministic automaton is deterministic. -/
theorem Deterministic.copy (hdet : g.Deterministic) : (g.copy root).Deterministic := by
  have hedges : ∀ j, (g.copy root).edges j = [] ∨ ∃ i, (g.copy root).edges j =
      (g.edges i).map fun e => ⟨e.label, (g.copyInto [root] empty).2 e.target⟩ := by
    intro j
    by_cases hj : j < (g.copy root).size
    · obtain ⟨i, hi, rfl⟩ := exists_eq_copyInto_name empty (Nat.zero_le j) hj
      exact Or.inr ⟨i, edges_copyInto_name hi⟩
    · exact Or.inl (edges_eq_nil_of_size_le (Nat.not_lt.mp hj))
  refine ⟨fun j e he => ?_, fun j => ?_, fun j e he => ?_⟩
  · rcases hedges j with hnil | ⟨i, hmap⟩
    · rw [hnil] at he
      cases he
    · rw [hmap] at he
      obtain ⟨f, hf, rfl⟩ := List.mem_map.mp he
      exact hdet.nonempty i f hf
  · rcases hedges j with hnil | ⟨i, hmap⟩
    · rw [hnil]
      exact List.Pairwise.nil
    · rw [hmap]
      exact List.pairwise_map.mpr (hdet.disjoint i)
  · rcases hedges j with hnil | ⟨i, hmap⟩
    · rw [hnil] at he
      cases he
    · rw [hmap] at he
      obtain ⟨f, hf, rfl⟩ := List.mem_map.mp he
      exact hdet.noSilent i f hf

end Graph
end Munch

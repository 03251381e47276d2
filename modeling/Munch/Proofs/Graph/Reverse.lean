import Munch.Graph.Reverse
import Munch.Proofs.Graph.Search

/-!
# Reversed automata read words backwards

Reversal turns every edge that can be reached from the root.  A path of the reversed
automaton that starts in an old state is therefore a path of the given one, read
backwards, and from the new start it leads through a final state to the root.

Main results:

- Theorem {lit}`Graph.mem_edges_reverse_iff`: which edges a reversed automaton has.
- Theorem {lit}`Graph.path_reverse_root_iff`: paths that end in the root.
- Theorem {lit}`Graph.accepts_reverse_iff`: the reversed automaton accepts the
  reversed words.
-/

namespace Munch
namespace Graph

variable {g : Graph} {root i j k : Nat} {e : Edge} {c : Int} {w : List Int}

/-! ## Edges and flags -/

/-- Setting a flag keeps all edges. -/
@[simp]
theorem edges_setFinal (b : Bool) : (g.setFinal j b).edges i = g.edges i := by
  by_cases hij : j = i
  · subst hij
    cases h : g.states[j]? <;> simp [edges, setFinal, Array.getElem?_modify, h]
  · simp [edges, setFinal, Array.getElem?_modify, hij]

/-- Setting a flag keeps those of the other states. -/
theorem isFinal_setFinal (b : Bool) :
    (g.setFinal j b).isFinal i = if j = i ∧ i < g.size then b else g.isFinal i := by
  by_cases hi : i < g.size
  · have hget : g.states[i]? = some g.states[i] := Array.getElem?_eq_getElem hi
    by_cases hij : j = i
    · subst hij
      simp only [isFinal, setFinal, Array.getElem?_modify, hget, if_true, hi, and_self]
      rfl
    · simp [isFinal, setFinal, Array.getElem?_modify, hij]
  · have hget : g.states[i]? = none := Array.getElem?_eq_none (Nat.le_of_not_lt hi)
    simp [isFinal, setFinal, Array.getElem?_modify, hi, hget]

theorem getElem?_replicate_bare {size : Nat} :
    (Array.replicate size (State.bare false))[i]? =
      if i < size then some (State.bare false) else none :=
  Array.getElem?_replicate

@[simp]
theorem edges_edgeless (size final : Nat) : (edgeless size final).edges i = [] := by
  rw [edgeless, edges_setFinal, edges, getElem?_replicate_bare]
  split <;> rfl

theorem isFinal_edgeless {size final : Nat} :
    (edgeless size final).isFinal i = true ↔ i = final ∧ i < size := by
  have hbare : (⟨Array.replicate size (State.bare false)⟩ : Graph).isFinal i = false := by
    rw [isFinal, getElem?_replicate_bare]
    split <;> rfl
  have hsize : (⟨Array.replicate size (State.bare false)⟩ : Graph).size = size :=
    Array.size_replicate
  rw [edgeless, isFinal_setFinal, hbare, hsize]
  split
  · rename_i hboth
    exact ⟨fun _ => ⟨hboth.1.symm, hboth.2⟩, fun _ => rfl⟩
  · rename_i hboth
    exact ⟨fun hfalse => absurd hfalse Bool.false_ne_true,
      fun h => absurd ⟨h.1.symm, h.2⟩ hboth⟩

theorem isFinal_addAll (listed : List (Nat × Edge)) :
    (g.addAll listed).isFinal i = g.isFinal i := by
  induction listed with
  | nil => rfl
  | cons entry listed ih =>
    rw [addAll, List.foldr_cons, isFinal_mapEdges]
    exact ih

/-- The edges listed for a state, in order. -/
def listedFor (listed : List (Nat × Edge)) (i : Nat) : List Edge :=
  listed.filterMap fun entry => if entry.1 = i then some entry.2 else none

theorem listedFor_cons (entry : Nat × Edge) (listed : List (Nat × Edge)) :
    listedFor (entry :: listed) i =
      if entry.1 = i then entry.2 :: listedFor listed i else listedFor listed i := by
  rw [listedFor, List.filterMap_cons]
  by_cases hentry : entry.1 = i
  · rw [if_pos hentry, if_pos hentry]
    rfl
  · rw [if_neg hentry, if_neg hentry]
    rfl

theorem mem_listedFor_iff {listed : List (Nat × Edge)} :
    e ∈ listedFor listed i ↔ (i, e) ∈ listed := by
  rw [listedFor, List.mem_filterMap]
  constructor
  · rintro ⟨⟨j, f⟩, hmem, hsome⟩
    obtain ⟨rfl, rfl⟩ : j = i ∧ f = e := by simpa using hsome
    exact hmem
  · intro hmem
    exact ⟨(i, e), hmem, if_pos rfl⟩

/-- The edges listed for a state come before those it had. -/
theorem edges_addAll {listed : List (Nat × Edge)} (hi : i < g.size) :
    (g.addAll listed).edges i = listedFor listed i ++ g.edges i := by
  induction listed with
  | nil => rfl
  | cons entry listed ih =>
    have hsize : i < (g.addAll listed).size := by rwa [size_addAll]
    have hstep : g.addAll (entry :: listed) =
        (g.addAll listed).mapEdges entry.1 (entry.2 :: ·) := rfl
    rw [hstep, edges_mapEdges, ih, listedFor_cons]
    by_cases hentry : entry.1 = i
    · rw [if_pos ⟨hentry, hsize⟩, if_pos hentry, List.cons_append]
    · rw [if_neg fun h => hentry h.1, if_neg hentry]

/-- Every listed edge is added, and none besides. -/
theorem mem_edges_addAll_iff {listed : List (Nat × Edge)} (hi : i < g.size) :
    e ∈ (g.addAll listed).edges i ↔ (i, e) ∈ listed ∨ e ∈ g.edges i := by
  rw [edges_addAll hi, List.mem_append, mem_listedFor_iff]

/-- The edges of a reversed automaton: the turned edges of reachable states, and silent
ones from the new state to the final states among them. -/
theorem mem_edges_reverse_iff (hi : i < g.size + 1) :
    e ∈ (g.reverse root).edges i ↔
      e.target ∈ g.reachable root ∧
        ((g.isFinal e.target = true ∧ i = g.size ∧ e.label = CodeSet.silent) ∨
          ∃ f ∈ g.edges e.target, f.target = i ∧ f.label = e.label) := by
  have hsize : i < (edgeless (g.size + 1) root).size := by
    simpa [edgeless, size, setFinal] using hi
  rw [reverse, mem_edges_addAll_iff hsize, edges_edgeless, List.mem_flatMap]
  simp only [List.not_mem_nil, or_false]
  constructor
  · rintro ⟨j, hj, hturned⟩
    rcases List.mem_append.mp hturned with hsilent | hedge
    · split at hsilent
      · rename_i hfinal
        obtain ⟨rfl, rfl⟩ := Prod.ext_iff.mp (List.mem_singleton.mp hsilent)
        exact ⟨hj, Or.inl ⟨hfinal, rfl, rfl⟩⟩
      · cases hsilent
    · obtain ⟨f, hf, heq⟩ := List.mem_map.mp hedge
      obtain ⟨rfl, rfl⟩ := Prod.ext_iff.mp heq
      exact ⟨hj, Or.inr ⟨f, hf, rfl, rfl⟩⟩
  · rintro ⟨hj, hcases⟩
    refine ⟨e.target, hj, List.mem_append.mpr ?_⟩
    rcases hcases with ⟨hfinal, rfl, hlabel⟩ | ⟨f, hf, rfl, hlabel⟩
    · left
      rw [if_pos hfinal, ← hlabel]
      exact List.mem_singleton_self _
    · right
      refine List.mem_map.mpr ⟨f, hf, ?_⟩
      rw [hlabel]

/-- The root is the only final state. -/
theorem isFinal_reverse_iff (hroot : root < g.size) :
    (g.reverse root).isFinal i = true ↔ i = root := by
  rw [reverse, isFinal_addAll, isFinal_edgeless]
  constructor
  · exact And.left
  · rintro rfl
    exact ⟨rfl, by omega⟩

theorem closed_reverse : (g.reverse root).Closed := by
  intro i e he
  rw [size_reverse]
  by_cases hi : i < g.size + 1
  · have hmem := ((mem_edges_reverse_iff hi).mp he).1
    exact Nat.lt_succ_of_lt (lt_size_of_mem_reachableFrom hmem)
  · rw [edges_eq_nil_of_size_le (size_reverse g root ▸ Nat.not_lt.mp hi)] at he
    cases he

/-- No edge enters the new state. -/
theorem target_lt_of_mem_edges_reverse (he : e ∈ (g.reverse root).edges i) : e.target < g.size := by
  by_cases hi : i < g.size + 1
  · exact lt_size_of_mem_reachableFrom ((mem_edges_reverse_iff hi).mp he).1
  · rw [edges_eq_nil_of_size_le (size_reverse g root ▸ Nat.not_lt.mp hi)] at he
    cases he

/-- An old state has only turned edges. -/
theorem mem_edges_reverse_of_lt_iff (hi : i < g.size) :
    e ∈ (g.reverse root).edges i ↔
      e.target ∈ g.reachable root ∧ ∃ f ∈ g.edges e.target, f.target = i ∧ f.label = e.label := by
  rw [mem_edges_reverse_iff (Nat.lt_succ_of_lt hi)]
  constructor
  · rintro ⟨hmem, ⟨-, rfl, -⟩ | hturned⟩
    · exact absurd hi (Nat.lt_irrefl _)
    · exact ⟨hmem, hturned⟩
  · rintro ⟨hmem, hturned⟩
    exact ⟨hmem, Or.inr hturned⟩

/-- In a closed graph only silent edges leave the new state, to the final states. -/
theorem mem_edges_reverse_size_iff (hclosed : g.Closed) :
    e ∈ (g.reverse root).edges g.size ↔
      e.target ∈ g.reachable root ∧ g.isFinal e.target = true ∧ e.label = CodeSet.silent := by
  rw [mem_edges_reverse_iff (Nat.lt_succ_self _)]
  constructor
  · rintro ⟨hmem, ⟨hfinal, -, hlabel⟩ | ⟨f, hf, htarget, -⟩⟩
    · exact ⟨hmem, hfinal, hlabel⟩
    · exact absurd (hclosed _ f hf) (by omega)
  · rintro ⟨hmem, hfinal, hlabel⟩
    exact ⟨hmem, Or.inl ⟨hfinal, rfl, hlabel⟩⟩

/-! ## Paths -/

/-- A turned path is a path of the given automaton. -/
theorem path_of_path_reverse (hi : i < g.size) (hpath : (g.reverse root).Path i w j) :
    g.Path j w.reverse i := by
  induction hpath with
  | nil i => exact Path.nil i
  | silent he hsilent rest ih =>
    obtain ⟨-, f, hf, rfl, hlabel⟩ := (mem_edges_reverse_of_lt_iff hi).mp he
    have hback := ih (target_lt_of_mem_edges_reverse he)
    have hlast := Path.silent hf (hlabel ▸ hsilent) (Path.nil _)
    simpa using hback.append hlast
  | read he hc hne rest ih =>
    obtain ⟨-, f, hf, rfl, hlabel⟩ := (mem_edges_reverse_of_lt_iff hi).mp he
    have hback := ih (target_lt_of_mem_edges_reverse he)
    rw [List.reverse_cons]
    exact hback.append (Path.of_edge hf (hlabel ▸ hc) hne)

/-- Paths among reachable states are turned. -/
theorem path_reverse_of_path (hclosed : g.Closed) (hj : j ∈ g.reachable root)
    (hpath : g.Path j w i) : (g.reverse root).Path i w.reverse j := by
  induction hpath with
  | nil i => exact Path.nil i
  | @silent j i e w he hsilent rest ih =>
    have htarget := isPart_reachableFrom hclosed j hj e he
    have hturned : ⟨e.label, j⟩ ∈ (g.reverse root).edges e.target :=
      (mem_edges_reverse_of_lt_iff (hclosed j e he)).mpr ⟨hj, e, he, rfl, rfl⟩
    have hlast := Path.silent hturned hsilent (Path.nil j)
    simpa using (ih htarget).append hlast
  | @read j i e c w he hc hne rest ih =>
    have htarget := isPart_reachableFrom hclosed j hj e he
    have hturned : ⟨e.label, j⟩ ∈ (g.reverse root).edges e.target :=
      (mem_edges_reverse_of_lt_iff (hclosed j e he)).mpr ⟨hj, e, he, rfl, rfl⟩
    rw [List.reverse_cons]
    exact (ih htarget).append (Path.of_edge hturned hc hne)

/-- From an old state, a path to a reachable state is a path from it, read backwards. -/
theorem path_reverse_iff (hclosed : g.Closed) (hi : i < g.size) (hj : j ∈ g.reachable root) :
    (g.reverse root).Path i w j ↔ g.Path j w.reverse i := by
  constructor
  · exact path_of_path_reverse hi
  · intro hpath
    simpa using path_reverse_of_path hclosed hj hpath

/-- From an old state, the reversed automaton comes to the root along the paths that
lead from the root to that state. -/
theorem path_reverse_root_iff (hclosed : g.Closed) (hroot : root < g.size) (hi : i < g.size) :
    (g.reverse root).Path i w root ↔ g.Path root w.reverse i :=
  path_reverse_iff hclosed hi (mem_reachableFrom_of_mem List.mem_cons_self hroot)

theorem accepts_reverse_iff_path (hclosed : g.Closed) (hroot : root < g.size) (hi : i < g.size) :
    (g.reverse root).Accepts i w ↔ g.Path root w.reverse i := by
  rw [← path_reverse_root_iff hclosed hroot hi]
  constructor
  · rintro ⟨j, hpath, hfinal⟩
    rwa [(isFinal_reverse_iff hroot).mp hfinal] at hpath
  · intro hpath
    exact ⟨root, hpath, (isFinal_reverse_iff hroot).mpr rfl⟩

/-- The new state accepts what final states accept backwards. -/
theorem accepts_reverse_size_iff (hclosed : g.Closed) (hroot : root < g.size) :
    (g.reverse root).Accepts g.size w ↔
      ∃ i ∈ g.reachable root, g.isFinal i = true ∧ (g.reverse root).Accepts i w := by
  constructor
  · rintro ⟨j, hpath, hfinal⟩
    cases hpath with
    | nil =>
      have := (isFinal_reverse_iff hroot).mp hfinal
      omega
    | silent he hsilent rest =>
      obtain ⟨hmem, hfinal', -⟩ := (mem_edges_reverse_size_iff hclosed).mp he
      exact ⟨_, hmem, hfinal', j, rest, hfinal⟩
    | read he hc hne rest =>
      obtain ⟨-, -, hlabel⟩ := (mem_edges_reverse_size_iff hclosed).mp he
      rw [hlabel, CodeSet.mem_silent] at hc
      exact absurd hc hne
  · rintro ⟨i, hmem, hfinal', j, hpath, hfinal⟩
    have hedge : ⟨CodeSet.silent, i⟩ ∈ (g.reverse root).edges g.size :=
      (mem_edges_reverse_size_iff hclosed).mpr ⟨hmem, hfinal', rfl⟩
    exact ⟨j, Path.silent hedge (CodeSet.mem_silent.mpr rfl) hpath, hfinal⟩

/-- The reversed automaton accepts the reversed words. -/
theorem accepts_reverse_iff (hclosed : g.Closed) (hroot : root < g.size) :
    (g.reverse root).Accepts g.size w ↔ g.Accepts root w.reverse := by
  rw [accepts_reverse_size_iff hclosed hroot]
  constructor
  · rintro ⟨i, hmem, hfinal, haccept⟩
    have hi := lt_size_of_mem_reachableFrom hmem
    exact ⟨i, (accepts_reverse_iff_path hclosed hroot hi).mp haccept, hfinal⟩
  · rintro ⟨i, hpath, hfinal⟩
    have hi := hclosed.lt_of_path hroot hpath
    refine ⟨i, (mem_reachable_iff hclosed hroot).mpr hpath.leads, hfinal, ?_⟩
    exact (accepts_reverse_iff_path hclosed hroot hi).mpr hpath

end Graph
end Munch

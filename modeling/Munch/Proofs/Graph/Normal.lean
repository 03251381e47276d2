import Munch.Graph.Normal
import Munch.Proofs.Graph.Search

/-!
# The normal form keeps all moves

Sorting and merging edges changes how the codes of a state are grouped, not where
they lead.  In the result no two edges of a state have one target.

Main results:

- Theorem {lit}`moves_normalEdges_iff`: the normal form leads every code where it
  led before.
- Theorem {lit}`pairwise_target_normalEdges`: targets are strictly increasing.
- Theorem {lit}`Graph.path_normalizeFrom_iff`: paths stay the same.
- Theorem {lit}`Graph.Deterministic.normalizeFrom`: determinism is kept.
-/

namespace Munch

/-- Some edge of a list leads to a state on a code. -/
def MovesIn (es : List Edge) (c : Int) (j : Nat) : Prop :=
  ∃ e ∈ es, c ∈ e.label ∧ e.target = j

section Merging

variable {e : Edge} {es : List Edge} {c : Int} {j : Nat}

/-- A move in a list of edges is in the first one or in the others. -/
theorem movesIn_cons : MovesIn (e :: es) c j ↔ (c ∈ e.label ∧ e.target = j) ∨ MovesIn es c j := by
  simp only [MovesIn, List.mem_cons, exists_eq_or_imp]

/-- Absorbing an edge adds its moves. -/
theorem movesIn_absorb : MovesIn (absorb e es) c j ↔ MovesIn (e :: es) c j := by
  cases es with
  | nil => rfl
  | cons f es =>
    rw [absorb]
    split
    · rename_i htarget
      simp only [movesIn_cons, CodeSet.mem_union, htarget, or_and_right, or_assoc]
    · rfl

/-- Merging edges to the same target leaves the moves. -/
theorem movesIn_mergeTargets : MovesIn (mergeTargets es) c j ↔ MovesIn es c j := by
  induction es with
  | nil => rfl
  | cons e es ih =>
    have hstep : MovesIn (mergeTargets (e :: es)) c j ↔ MovesIn (e :: mergeTargets es) c j :=
      movesIn_absorb
    rw [hstep, movesIn_cons, movesIn_cons, ih]

/-- The normal form leads every code where it led before. -/
theorem moves_normalEdges_iff : MovesIn (normalEdges es) c j ↔ MovesIn es c j := by
  rw [normalEdges, movesIn_mergeTargets]
  simp only [MovesIn, List.mem_filter, List.mem_mergeSort, Bool.not_eq_true',
    CodeSet.isEmpty_eq_false_iff]
  constructor
  · rintro ⟨e, ⟨he, -⟩, hmove⟩
    exact ⟨e, he, hmove⟩
  · rintro ⟨e, he, hc, htarget⟩
    exact ⟨e, ⟨he, c, hc⟩, hc, htarget⟩

/-- Edges of increasing targets have strictly increasing ones once they are merged. -/
theorem pairwise_target_mergeTargets (hsorted : es.Pairwise fun e f => e.target ≤ f.target) :
    (mergeTargets es).Pairwise fun e f => e.target < f.target := by
  induction es with
  | nil => exact List.Pairwise.nil
  | cons e es ih =>
    obtain ⟨hfirst, hrest⟩ := List.pairwise_cons.mp hsorted
    have hmerged := ih hrest
    have hle : ∀ f ∈ mergeTargets es, e.target ≤ f.target := by
      intro f hf
      obtain ⟨f', hf', htarget⟩ := List.mem_map.mp (target_mem_of_mem_mergeTargets hf)
      exact htarget ▸ hfirst f' hf'
    change (absorb e (mergeTargets es)).Pairwise _
    cases hcase : mergeTargets es with
    | nil => exact List.pairwise_singleton _ _
    | cons f fs =>
      rw [hcase] at hmerged hle
      obtain ⟨hf, hfs⟩ := List.pairwise_cons.mp hmerged
      rw [absorb]
      split
      · rename_i htarget
        refine List.pairwise_cons.mpr ⟨fun x hx => ?_, hfs⟩
        exact htarget ▸ hf x hx
      · rename_i htarget
        refine List.pairwise_cons.mpr ⟨fun x hx => ?_, hmerged⟩
        have hef := hle f List.mem_cons_self
        rcases List.mem_cons.mp hx with rfl | hx
        · omega
        · have := hf x hx
          omega

/-- In normal form the targets are strictly increasing. -/
theorem pairwise_target_normalEdges :
    (normalEdges es).Pairwise fun e f => e.target < f.target := by
  refine pairwise_target_mergeTargets (List.Pairwise.filter _ ?_)
  refine (List.pairwise_mergeSort ?_ ?_ es).imp of_decide_eq_true
  · intro a b c hab hbc
    exact decide_eq_true (Nat.le_trans (of_decide_eq_true hab) (of_decide_eq_true hbc))
  · intro a b
    simpa only [Bool.or_eq_true, decide_eq_true_eq] using Nat.le_total a.target b.target

/-- Merged labels hold codes when the labels do. -/
theorem nonempty_label_of_mem_absorb (hes : ∀ f ∈ es, ∃ c, c ∈ f.label) (he : ∃ c, c ∈ e.label)
    {f : Edge} (hf : f ∈ absorb e es) : ∃ c, c ∈ f.label := by
  cases es with
  | nil =>
    obtain rfl := List.mem_singleton.mp hf
    exact he
  | cons g rest =>
    rw [absorb] at hf
    split at hf
    · rcases List.mem_cons.mp hf with rfl | hf
      · obtain ⟨c, hc⟩ := he
        exact ⟨c, CodeSet.mem_union.mpr (Or.inl hc)⟩
      · exact hes f (List.mem_cons_of_mem _ hf)
    · rcases List.mem_cons.mp hf with rfl | hf
      · exact he
      · exact hes f hf

/-- So do the labels of all merged edges. -/
theorem nonempty_label_of_mem_mergeTargets (hes : ∀ f ∈ es, ∃ c, c ∈ f.label) {f : Edge}
    (hf : f ∈ mergeTargets es) : ∃ c, c ∈ f.label := by
  induction es generalizing f with
  | nil => cases hf
  | cons e es ih =>
    have hrest : ∀ f ∈ mergeTargets es, ∃ c, c ∈ f.label := fun f hf =>
      ih (fun x hx => hes x (List.mem_cons_of_mem _ hx)) hf
    exact nonempty_label_of_mem_absorb hrest (hes e List.mem_cons_self) hf

/-- In normal form every label has a code. -/
theorem nonempty_label_of_mem_normalEdges {f : Edge} (hf : f ∈ normalEdges es) :
    ∃ c, c ∈ f.label := by
  refine nonempty_label_of_mem_mergeTargets (fun e he => ?_) hf
  have hkept := (List.mem_filter.mp he).2
  rw [Bool.not_eq_true'] at hkept
  exact CodeSet.isEmpty_eq_false_iff.mp hkept

end Merging

namespace Graph

variable {g : Graph} {order : List Nat} {root i j : Nat} {w : List Int}

/-! ## Changing many states -/

/-- Changing the edges of states leaves their number. -/
theorem size_foldl_mapEdges (f : List Edge → List Edge) :
    (order.foldl (fun r i => r.mapEdges i f) g).size = g.size := by
  induction order generalizing g with
  | nil => rfl
  | cons i order ih => rw [List.foldl_cons, ih, size_mapEdges]

/-- It leaves the final flags. -/
theorem isFinal_foldl_mapEdges (f : List Edge → List Edge) :
    (order.foldl (fun r i => r.mapEdges i f) g).isFinal j = g.isFinal j := by
  induction order generalizing g with
  | nil => rfl
  | cons i order ih => rw [List.foldl_cons, ih, isFinal_mapEdges]

/-- Changing the edges of states one after the other changes those of each once. -/
theorem edges_foldl_mapEdges (f : List Edge → List Edge) (hnodup : order.Nodup) :
    (order.foldl (fun r i => r.mapEdges i f) g).edges j =
      if j ∈ order ∧ j < g.size then f (g.edges j) else g.edges j := by
  induction order generalizing g with
  | nil => simp
  | cons i order ih =>
    obtain ⟨hi, hnodup⟩ := List.nodup_cons.mp hnodup
    rw [List.foldl_cons, ih hnodup, edges_mapEdges, size_mapEdges]
    by_cases hij : i = j
    · subst hij
      simp [hi]
    · simp [hij, Ne.symm hij]

/-! ## Normal form of whole graphs -/

/-- The normal form is made state by state. -/
theorem normalizeFrom_eq :
    g.normalizeFrom root = (g.reachable root).foldl (fun r i => r.mapEdges i normalEdges) g :=
  rfl

/-- It has as many states. -/
@[simp]
theorem size_normalizeFrom : (g.normalizeFrom root).size = g.size := by
  rw [normalizeFrom_eq, size_foldl_mapEdges]

@[simp]
theorem isFinal_normalizeFrom : (g.normalizeFrom root).isFinal i = g.isFinal i := by
  rw [normalizeFrom_eq, isFinal_foldl_mapEdges]

/-- Every state has its old edges or their normal form. -/
theorem edges_normalizeFrom :
    (g.normalizeFrom root).edges i =
      if i ∈ g.reachable root ∧ i < g.size then normalEdges (g.edges i) else g.edges i := by
  rw [normalizeFrom_eq, edges_foldl_mapEdges normalEdges nodup_reachable]

/-- Normal form keeps every move. -/
theorem moves_normalizeFrom_iff {c : Int} :
    (g.normalizeFrom root).Moves i c j ↔ g.Moves i c j := by
  have hcases : (g.normalizeFrom root).Moves i c j ↔
      MovesIn ((g.normalizeFrom root).edges i) c j := Iff.rfl
  rw [hcases, edges_normalizeFrom]
  split
  · exact moves_normalEdges_iff
  · exact Iff.rfl

/-- Normal form keeps the paths of words. -/
theorem path_normalizeFrom_iff (hw : IsWord w) :
    (g.normalizeFrom root).Path i w j ↔ g.Path i w j :=
  path_congr_of_moves (fun _ _ _ _ => moves_normalizeFrom_iff) hw

/-- The normal form accepts the same words. -/
theorem accepts_normalizeFrom_iff (hw : IsWord w) :
    (g.normalizeFrom root).Accepts i w ↔ g.Accepts i w :=
  accepts_congr_of_moves (fun _ _ _ _ => moves_normalizeFrom_iff)
    (fun _ => isFinal_normalizeFrom) hw

/-- An edge of the normal form has the target of an old edge, and each of its codes is
on an old edge to that target. -/
theorem exists_edge_of_mem_normalizeFrom {e : Edge} {c : Int}
    (he : e ∈ (g.normalizeFrom root).edges i) (hc : c ∈ e.label) :
    ∃ f ∈ g.edges i, c ∈ f.label ∧ f.target = e.target :=
  moves_normalizeFrom_iff.mp ⟨e, he, hc, rfl⟩

/-- Its edges stay within the graph. -/
theorem closed_normalizeFrom (hclosed : g.Closed) : (g.normalizeFrom root).Closed := by
  intro i e he
  rw [size_normalizeFrom]
  rw [edges_normalizeFrom] at he
  split at he
  · obtain ⟨c, hc⟩ := nonempty_label_of_mem_normalEdges he
    obtain ⟨f, hf, -, htarget⟩ := moves_normalEdges_iff.mp ⟨e, he, hc, rfl⟩
    exact htarget ▸ hclosed i f hf
  · exact hclosed i e he

/-- Its labels stay within the alphabet. -/
theorem inAlphabet_normalizeFrom (hall : g.InAlphabet) : (g.normalizeFrom root).InAlphabet := by
  intro i e he c hc
  obtain ⟨f, hf, hcf, -⟩ := exists_edge_of_mem_normalizeFrom he hc
  exact hall i f hf c hcf

/-- Determinism is kept. -/
theorem Deterministic.normalizeFrom (hdet : g.Deterministic) :
    (g.normalizeFrom root).Deterministic where
  nonempty i e he := by
    rw [edges_normalizeFrom] at he
    split at he
    · exact nonempty_label_of_mem_normalEdges he
    · exact hdet.nonempty i e he
  disjoint i := by
    rw [edges_normalizeFrom]
    split
    · refine pairwise_target_normalEdges.imp_of_mem fun he hf hlt c ⟨hce, hcf⟩ => ?_
      -- A code on two edges of the normal form would be on two old edges as well.
      obtain ⟨e', he', hce', htarget⟩ := moves_normalEdges_iff.mp ⟨_, he, hce, rfl⟩
      obtain ⟨f', hf', hcf', htarget'⟩ := moves_normalEdges_iff.mp ⟨_, hf, hcf, rfl⟩
      obtain rfl := hdet.edge_eq he' hf' hce' hcf'
      omega
    · exact hdet.disjoint i
  noSilent i e he hsilent := by
    obtain ⟨f, hf, hsilent', -⟩ := exists_edge_of_mem_normalizeFrom he hsilent
    exact hdet.noSilent i f hf hsilent'

end Graph
end Munch

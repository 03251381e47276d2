import Munch.Proofs.Graph.Reverse
import Munch.Proofs.Graph.Subset

/-!
# Determinized reversals

Reversing an automaton and determinizing it once gives the deterministic automaton of
the reversed words.  If the given automaton was deterministic and words reach all of
its states, the members of a state of the result are decided by the words the state
accepts, up to the new state that reversal has added.  Nothing leads back to that new
state, so only the first set holds it.

Main results:

- Theorem {lit}`Graph.accepts_reverseSubsets_iff`: the words accepted, read backwards.
- Theorem {lit}`Graph.mem_members_iff_accepts`: what a state accepts tells its members.
- Theorem {lit}`Graph.eq_of_accepts_iff`: later states that accept the same words are
  equal.
-/

namespace Munch
namespace Graph

variable {g : Graph} {root i j p q : Nat} {e : Edge} {w u : List Int}

/-! ## What reversal keeps -/

/-- A reversed edge has the label of an edge of its target, or comes from the new start. -/
theorem label_of_mem_edges_reverse (he : e ∈ (g.reverse root).edges i) :
    e.label = CodeSet.silent ∨ ∃ f ∈ g.edges e.target, f.label = e.label := by
  have hi : i < g.size + 1 := by
    have hlt := lt_size_of_mem_edges he
    rwa [size_reverse] at hlt
  obtain ⟨-, ⟨-, -, hlabel⟩ | ⟨f, hf, -, hlabel⟩⟩ := (mem_edges_reverse_iff hi).mp he
  · exact Or.inl hlabel
  · exact Or.inr ⟨f, hf, hlabel⟩

/-- The labels of a reversed automaton act as symbols if the given ones do. -/
theorem symbolic_reverse (hsym : g.Symbolic) : (g.reverse root).Symbolic where
  nonempty i e he := by
    rcases label_of_mem_edges_reverse he with hlabel | ⟨f, hf, hlabel⟩
    · exact ⟨Code.silent, hlabel ▸ CodeSet.mem_silent.mpr rfl⟩
    · exact hlabel ▸ hsym.nonempty _ f hf
  separate i j e he e' he' c hc hc' := by
    rcases label_of_mem_edges_reverse he with hlabel | ⟨f, hf, hlabel⟩ <;>
      rcases label_of_mem_edges_reverse he' with hlabel' | ⟨f', hf', hlabel'⟩
    · rw [hlabel, hlabel']
    · rw [hlabel] at hc ⊢
      rw [← hlabel'] at hc' ⊢
      exact (hsym.silent_eq _ f' hf' (CodeSet.mem_silent.mp hc ▸ hc')).symm
    · rw [hlabel'] at hc' ⊢
      rw [← hlabel] at hc ⊢
      exact hsym.silent_eq _ f hf (CodeSet.mem_silent.mp hc' ▸ hc)
    · rw [← hlabel, ← hlabel']
      exact hsym.separate _ _ f hf f' hf' c (hlabel ▸ hc) (hlabel' ▸ hc')
  silent_eq i e he hsilent := by
    rcases label_of_mem_edges_reverse he with hlabel | ⟨f, hf, hlabel⟩
    · exact hlabel
    · exact hlabel ▸ hsym.silent_eq _ f hf (hlabel ▸ hsilent)

/-- The reversed edges stay within the alphabet. -/
theorem inAlphabet_reverse (hall : g.InAlphabet) : (g.reverse root).InAlphabet := by
  intro i e he c hc
  rcases label_of_mem_edges_reverse he with hlabel | ⟨f, hf, hlabel⟩
  · rw [hlabel, CodeSet.mem_silent] at hc
    rw [hc]
    decide
  · exact hall _ f hf c (hlabel ▸ hc)

/-- Among the old states of a reversed automaton one stays. -/
theorem lt_of_path_reverse (hi : i < g.size) (hpath : (g.reverse root).Path i w j) :
    j < g.size := by
  have hpart : (g.reverse root).IsPart {k | k < g.size} :=
    fun _ _ _ he => target_lt_of_mem_edges_reverse he
  exact hpart.mem_of_path hi hpath

/-! ## One determinized reversal -/

/-- The automaton of the reversed sets has no edges out of it. -/
theorem closed_reverseSubsets : (g.reverseSubsets root).Closed :=
  closed_subsets

/-- It has a state. -/
theorem size_reverseSubsets_pos : 0 < (g.reverseSubsets root).size :=
  size_subsets_pos

/-- Its edges read one symbol each. -/
theorem symbolic_reverseSubsets (hsym : g.Symbolic) : (g.reverseSubsets root).Symbolic :=
  symbolic_subsets (symbolic_reverse hsym)

theorem inAlphabet_reverseSubsets (hsym : g.Symbolic) (hall : g.InAlphabet) :
    (g.reverseSubsets root).InAlphabet :=
  inAlphabet_subsets (symbolic_reverse hsym) (inAlphabet_reverse hall)

/-- It has at most one way on every code. -/
theorem deterministic_reverseSubsets (hsym : g.Symbolic) : (g.reverseSubsets root).Deterministic :=
  deterministic_subsets (symbolic_reverse hsym)

/-- Every state is reached by some word. -/
theorem exists_path_reverseSubsets (hsym : g.Symbolic) (hj : j < (g.reverseSubsets root).size) :
    ∃ w, (g.reverseSubsets root).Path 0 w j :=
  exists_path_subsets (symbolic_reverse hsym) hj

section Language

variable (hsym : g.Symbolic) (hclosed : g.Closed) (hroot : root < g.size)
include hsym hclosed hroot

/-- The words accepted are those of the given automaton, read backwards. -/
theorem accepts_reverseSubsets_iff :
    (g.reverseSubsets root).Accepts 0 w ↔ g.Accepts root w.reverse := by
  have hstart : g.size < (g.reverse root).size := by
    rw [size_reverse]
    exact Nat.lt_succ_self _
  rw [reverseSubsets, accepts_subsets_iff (symbolic_reverse hsym) closed_reverse hstart,
    accepts_reverse_iff hclosed hroot]

/-- A state accepts what leads, backwards, from the root to an old member. -/
theorem accepts_reverseSubsets_iff_members (hi : i < (g.reverseSubsets root).size) :
    (g.reverseSubsets root).Accepts i w ↔
      ∃ p ∈ (g.reverse root).members g.size i, p < g.size ∧ g.Path root w.reverse p := by
  have hstart : g.size < (g.reverse root).size := by
    rw [size_reverse]
    exact Nat.lt_succ_self _
  have hsym' : (g.reverse root).Symbolic := symbolic_reverse hsym
  rw [reverseSubsets, accepts_subsets_iff_members hsym' closed_reverse hstart hi]
  constructor
  · rintro ⟨p, hp, haccept⟩
    by_cases hlt : p < g.size
    · exact ⟨p, hp, hlt, (accepts_reverse_iff_path hclosed hroot hlt).mp haccept⟩
    · -- What the new state accepts, an old member accepts as well.
      have hsize : p = g.size := by
        have hpath := mem_members_of_path_nil hsym' closed_reverse hstart hi hp (Path.nil p)
        have hmem := lt_size_of_mem_members hpath
        rw [size_reverse] at hmem
        omega
      subst hsize
      obtain ⟨r, hr, hfinal, haccept'⟩ := (accepts_reverse_size_iff hclosed hroot).mp haccept
      have hedge : ⟨CodeSet.silent, r⟩ ∈ (g.reverse root).edges g.size :=
        (mem_edges_reverse_size_iff hclosed).mpr ⟨hr, hfinal, rfl⟩
      have hnil : (g.reverse root).Path g.size [] r :=
        Path.silent hedge (CodeSet.mem_silent.mpr rfl) (Path.nil r)
      have hlt' := lt_size_of_mem_reachableFrom hr
      exact ⟨r, mem_members_of_path_nil hsym' closed_reverse hstart hi hp hnil, hlt',
        (accepts_reverse_iff_path hclosed hroot hlt').mp haccept'⟩
  · rintro ⟨p, hp, hlt, hpath⟩
    exact ⟨p, hp, (accepts_reverse_iff_path hclosed hroot hlt).mpr hpath⟩

omit hclosed hroot in
/-- Only the first set holds the state that reversal has added. -/
theorem lt_of_mem_members (hi : i < (g.reverseSubsets root).size) (hpos : 0 < i)
    (hq : q ∈ (g.reverse root).members g.size i) : q < g.size := by
  have hsym' : (g.reverse root).Symbolic := symbolic_reverse hsym
  have hreached := (Subsets.progress_finished (g.reverse root) g.size).1.reached
  obtain ⟨k, -, e, he, rfl⟩ := hreached i hpos (size_subsets ▸ hi)
  obtain ⟨p, -, r, hedge, hpath⟩ := (mem_members_target_iff hsym' closed_reverse he).mp hq
  exact lt_of_path_reverse (target_lt_of_mem_edges_reverse hedge) hpath

omit hclosed hroot in
/-- No edge leads back to the first state. -/
theorem target_pos_of_mem_edges (he : e ∈ (g.reverseSubsets root).edges i) : 0 < e.target := by
  have hsym' : (g.reverse root).Symbolic := symbolic_reverse hsym
  have hstart : g.size < (g.reverse root).size := by
    rw [size_reverse]
    exact Nat.lt_succ_self _
  refine Nat.pos_of_ne_zero fun hzero => ?_
  have hmem : g.size ∈ (g.reverse root).members g.size e.target := by
    rw [hzero]
    exact (mem_members_zero_iff closed_reverse hstart).mpr (Path.nil g.size)
  obtain ⟨p, -, r, hedge, hpath⟩ := (mem_members_target_iff hsym' closed_reverse he).mp hmem
  have hlt := lt_of_path_reverse (target_lt_of_mem_edges_reverse hedge) hpath
  exact absurd hlt (Nat.lt_irrefl _)

/-! ## The second reversal -/

variable (hdet : g.Deterministic)
include hdet

/-- The words that a state accepts tell which old states it stands for. -/
theorem mem_members_iff_accepts (hi : i < (g.reverseSubsets root).size) (hq : q < g.size)
    (hpath : g.Path root u q) :
    q ∈ (g.reverse root).members g.size i ↔ (g.reverseSubsets root).Accepts i u.reverse := by
  rw [accepts_reverseSubsets_iff_members hsym hclosed hroot hi, List.reverse_reverse]
  constructor
  · intro hmem
    exact ⟨q, hmem, hq, hpath⟩
  · rintro ⟨p, hp, -, hpath'⟩
    rwa [hdet.eq_of_path hpath hpath']

variable (hall : g.InAlphabet) (hreach : ∀ q < g.size, ∃ u, g.Path root u q)
include hall hreach

/-- Later states that accept the same words are equal. -/
theorem eq_of_accepts_iff (hi : i < (g.reverseSubsets root).size)
    (hj : j < (g.reverseSubsets root).size) (hposi : 0 < i) (hposj : 0 < j)
    (h : ∀ w, IsWord w →
      ((g.reverseSubsets root).Accepts i w ↔ (g.reverseSubsets root).Accepts j w)) : i = j := by
  refine eq_of_members_iff hi hj fun q => ?_
  by_cases hq : q < g.size
  · obtain ⟨u, hpath⟩ := hreach q hq
    have hword : IsWord u.reverse := isWord_reverse.mpr (hall.isWord_of_path hpath)
    rw [mem_members_iff_accepts hsym hclosed hroot hdet hi hq hpath, h _ hword,
      mem_members_iff_accepts hsym hclosed hroot hdet hj hq hpath]
  · constructor
    · intro hmem
      exact absurd (lt_of_mem_members hsym hi hposi hmem) hq
    · intro hmem
      exact absurd (lt_of_mem_members hsym hj hposj hmem) hq

/-- Every later state accepts some word. -/
theorem exists_accepts_of_pos (hi : i < (g.reverseSubsets root).size) (hpos : 0 < i) :
    ∃ w, IsWord w ∧ (g.reverseSubsets root).Accepts i w := by
  have hsym' : (g.reverse root).Symbolic := symbolic_reverse hsym
  have hreached := (Subsets.progress_finished (g.reverse root) g.size).1.reached
  obtain ⟨k, -, e, he, rfl⟩ := hreached i hpos (size_subsets ▸ hi)
  obtain ⟨m, hm, hlabel, -⟩ := exists_move_of_mem_edges he
  obtain ⟨p, hp, q, -, hedge, -⟩ := exists_edge_of_mem_movesFrom hsym' hm
  have hmem : q ∈ (g.reverse root).members g.size e.target :=
    (mem_members_target_iff hsym' closed_reverse he).mpr ⟨p, hp, q, hlabel ▸ hedge, Path.nil q⟩
  have hq := target_lt_of_mem_edges_reverse hedge
  obtain ⟨u, hpath⟩ := hreach q hq
  exact ⟨u.reverse, isWord_reverse.mpr (hall.isWord_of_path hpath),
    (mem_members_iff_accepts hsym hclosed hroot hdet hi hq hpath).mp hmem⟩

end Language

end Graph
end Munch

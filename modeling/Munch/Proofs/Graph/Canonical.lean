import Mathlib.Data.List.Permutation
import Munch.Proofs.Graph.Least

/-!
# Minimal automata are determined by their languages

A state of a minimal automaton other than the first is determined by the words that it
accepts, and its edges are in normal form.  So two minimal automata of one language differ
in the numbers of their states only.  States belong together when some word leads to
both; a move of one automaton is then answered by a move of the other on the same code.

Main results:

- Theorem {lit}`Graph.standard_minimal`: what holds of every minimal automaton.
- Theorem {lit}`Graph.Meets.exists_moves`: states that belong together move alike.
- Theorem {lit}`Graph.Standard.exists_renames`: automata of this form that accept the same
  words are renamings of each other.
- Theorem {lit}`Graph.minimal_renames_of_accepts_iff`: so are the minimal automata of
  graphs that accept the same words.
-/

namespace Munch
namespace Graph

/-! ## Notions -/

/-- A trim automaton whose first state is never reached again, in which no two of the other
states accept the same words, and whose edges are in normal form. -/
structure Standard (d : Graph) : Prop extends Trim d where
  inAlphabet : d.InAlphabet
  target_pos : ∀ i, ∀ e ∈ d.edges i, 0 < e.target
  distinct : ∀ i < d.size, ∀ j < d.size, 0 < i → 0 < j → d.Equivalent i j → i = j
  sorted : ∀ i, (d.edges i).Pairwise fun e f => e.target < f.target

/-- The labels of the edges from a state to another, in order. -/
def labelsBetween (g : Graph) (i j : Nat) : List CodeSet :=
  ((g.edges i).filter fun e => e.target = j).map Edge.label

/-- Two graphs differ in the numbers of their states only: the first states belong
together, final states to final ones, and every two states are joined by edges with the
same labels as those that they belong to. -/
structure Renames (g h : Graph) (name : Nat → Nat) : Prop where
  size_eq : h.size = g.size
  bijOn : Set.BijOn name {i | i < g.size} {i | i < h.size}
  start : name 0 = 0
  isFinal_eq : ∀ i < g.size, h.isFinal (name i) = g.isFinal i
  labels_eq : ∀ i < g.size, ∀ j < g.size,
    h.labelsBetween (name i) (name j) = g.labelsBetween i j

variable {g h m n : Graph} {i j x y : Nat} {s t : Nat} {c : Int} {u w : List Int}
  {label : CodeSet}

theorem mem_labelsBetween_iff : label ∈ g.labelsBetween i j ↔ ⟨label, j⟩ ∈ g.edges i := by
  simp only [labelsBetween, List.mem_map, List.mem_filter, decide_eq_true_eq]
  constructor
  · rintro ⟨e, ⟨he, rfl⟩, rfl⟩
    exact he
  · intro he
    exact ⟨_, ⟨he, rfl⟩, rfl⟩

/-- A move is a code of a label between the two states. -/
theorem moves_iff_exists_label : g.Moves i c j ↔ ∃ label ∈ g.labelsBetween i j, c ∈ label := by
  constructor
  · rintro ⟨e, he, hc, rfl⟩
    exact ⟨e.label, mem_labelsBetween_iff.mpr he, hc⟩
  · rintro ⟨label, hlabel, hc⟩
    exact ⟨⟨label, j⟩, mem_labelsBetween_iff.mp hlabel, hc, rfl⟩

/-! ## The form of minimal automata -/

section Minimal

variable {start : Nat} (hclosed : g.Closed) (hstart : start < g.size)
include hclosed hstart

/-- The edges of a minimal automaton are in the order of their targets. -/
theorem sorted_minimal (i : Nat) :
    ((g.minimal start).edges i).Pairwise fun e f => e.target < f.target := by
  rw [minimal_eq, edges_normalizeFrom]
  split
  · exact pairwise_target_normalEdges
  · rename_i hnot
    have hedges : (g.forward start).edges i = [] := by
      refine edges_eq_nil_of_size_le (Nat.not_lt.mp fun hi => hnot ⟨?_, hi⟩)
      -- Words reach every state, so the normal form misses none.
      obtain ⟨w, hpath⟩ := exists_path_reverseSubsets (symbolic_backward hclosed hstart) hi
      exact (mem_reachable_iff closed_reverseSubsets size_reverseSubsets_pos).mpr hpath.leads
    rw [hedges]
    exact List.Pairwise.nil

/-- What holds of every minimal automaton. -/
theorem standard_minimal : (g.minimal start).Standard where
  toTrim := trim_minimal hclosed hstart
  inAlphabet := inAlphabet_minimal hclosed hstart
  target_pos _ _ he := target_pos_of_mem_edges_minimal hclosed hstart he
  distinct _ hi _ hj hposi hposj heq :=
    eq_of_minimal_accepts_iff hclosed hstart hi hj hposi hposj heq
  sorted := sorted_minimal hclosed hstart

end Minimal

namespace Standard

/-- Only the empty word leads to the first state. -/
theorem pos_of_path (hn : n.Standard) (hu : u ≠ []) (hpath : n.Path i u j) : 0 < j :=
  hpath.pos_of_ne_nil hn.target_pos hu

/-- From a state to another there is one edge at most. -/
theorem length_labelsBetween_le (hn : n.Standard) (i j : Nat) :
    (n.labelsBetween i j).length ≤ 1 := by
  have hpair : ((n.edges i).filter fun e => e.target = j).Pairwise fun _ _ => False := by
    refine ((hn.sorted i).filter _).imp_of_mem fun he hf hlt => ?_
    have he' := of_decide_eq_true (List.mem_filter.mp he).2
    have hf' := of_decide_eq_true (List.mem_filter.mp hf).2
    omega
  rw [labelsBetween, List.length_map]
  cases hcase : (n.edges i).filter fun e => e.target = j with
  | nil => exact Nat.zero_le 1
  | cons e rest =>
    rw [hcase] at hpair
    cases rest with
    | nil => exact Nat.le_refl 1
    | cons f rest => exact absurd ((List.pairwise_cons.mp hpair).1 f List.mem_cons_self) id

/-- The codes of the moves between two states are the codes of the edge between them. -/
theorem labelsBetween_eq (hm : m.Standard) (hn : n.Standard)
    (hmoves : ∀ c, n.Moves x c y ↔ m.Moves i c j) :
    n.labelsBetween x y = m.labelsBetween i j := by
  have hone := hm.length_labelsBetween_le i j
  have hone' := hn.length_labelsBetween_le x y
  have hsome : ∀ label ∈ m.labelsBetween i j, ∃ c, c ∈ label := fun label hlabel =>
    hm.deterministic.nonempty i _ (mem_labelsBetween_iff.mp hlabel)
  have hsome' : ∀ label ∈ n.labelsBetween x y, ∃ c, c ∈ label := fun label hlabel =>
    hn.deterministic.nonempty x _ (mem_labelsBetween_iff.mp hlabel)
  simp only [moves_iff_exists_label] at hmoves
  generalize n.labelsBetween x y = as at *
  generalize m.labelsBetween i j = bs at *
  cases as with
  | nil =>
    cases bs with
    | nil => rfl
    | cons b bs =>
      obtain ⟨c, hc⟩ := hsome b List.mem_cons_self
      obtain ⟨label, hlabel, -⟩ := (hmoves c).mpr ⟨b, List.mem_cons_self, hc⟩
      cases hlabel
  | cons a as =>
    obtain rfl := List.length_eq_zero_iff.mp (Nat.le_zero.mp (Nat.le_of_succ_le_succ hone'))
    cases bs with
    | nil =>
      obtain ⟨c, hc⟩ := hsome' a List.mem_cons_self
      obtain ⟨label, hlabel, -⟩ := (hmoves c).mp ⟨a, List.mem_cons_self, hc⟩
      cases hlabel
    | cons b bs =>
      obtain rfl := List.length_eq_zero_iff.mp (Nat.le_zero.mp (Nat.le_of_succ_le_succ hone))
      have hcodes : ∀ c, c ∈ a ↔ c ∈ b := by
        simpa only [List.mem_singleton, exists_eq_left] using hmoves
      rw [CodeSet.eq_of_forall_mem_iff hcodes]

end Standard

/-! ## States that belong together -/

section Together

variable (hm : m.Standard) (hn : n.Standard)
  (hsame : ∀ w, IsWord w → (m.Accepts 0 w ↔ n.Accepts 0 w))

theorem Meets.symm (hmeets : Meets m n i x) : Meets n m x i := by
  obtain ⟨u, hu, hpath, hpath'⟩ := hmeets
  exact ⟨u, hu, hpath', hpath⟩

include hm hn

/-- The first states belong to each other only. -/
theorem Meets.eq_zero (hmeets : Meets m n 0 x) : x = 0 := by
  obtain ⟨u, -, hpath, hpath'⟩ := hmeets
  by_cases hu : u = []
  · subst hu
    exact hn.deterministic.path_nil_iff.mp hpath'
  · exact absurd (hm.pos_of_path hu hpath) (Nat.lt_irrefl 0)

theorem Meets.pos (hmeets : Meets m n i x) (hpos : 0 < i) : 0 < x := by
  refine Nat.pos_of_ne_zero fun hx => ?_
  subst hx
  exact absurd (hmeets.symm.eq_zero hn hm) (Nat.ne_of_gt hpos)

include hsame

/-- A state belongs to one state of the other automaton at most. -/
theorem Meets.unique (hx : Meets m n i x) (hy : Meets m n i y) : x = y := by
  rcases Nat.eq_zero_or_pos i with rfl | hpos
  · rw [hx.eq_zero hm hn, hy.eq_zero hm hn]
  · have hlt : ∀ z, Meets m n i z → z < n.size := fun z hz => by
      obtain ⟨u, -, -, hpath⟩ := hz
      exact hn.closed.lt_of_path hn.pos hpath
    refine hn.distinct x (hlt x hx) y (hlt y hy) (hx.pos hm hn hpos) (hy.pos hm hn hpos) ?_
    intro w hw
    rw [← accepts_iff_of_meets hm.toTrim hn.deterministic hsame hx hw,
      ← accepts_iff_of_meets hm.toTrim hn.deterministic hsame hy hw]

/-- States that belong together are final together. -/
theorem Meets.isFinal_eq (hmeets : Meets m n i x) : n.isFinal x = m.isFinal i := by
  have hnil := accepts_iff_of_meets hm.toTrim hn.deterministic hsame hmeets isWord_nil
  rw [hm.deterministic.accepts_nil_iff, hn.deterministic.accepts_nil_iff] at hnil
  exact (Bool.eq_iff_iff.mpr hnil).symm

/-- States that belong together move alike, to states that belong together. -/
theorem Meets.exists_moves (hmeets : Meets m n i x) (hmove : m.Moves i c j) :
    ∃ y, n.Moves x c y ∧ Meets m n j y := by
  obtain ⟨u, hu, hpath, hpath'⟩ := hmeets
  obtain ⟨e, he, hc, rfl⟩ := hmove
  have hne := hm.deterministic.ne_silent he hc
  have hlonger := hpath.append (Path.of_edge he hc hne)
  have hword := hm.inAlphabet.isWord_of_path hlonger
  -- Some word goes on from the target, and the other automaton has to read it as well.
  obtain ⟨v, hv, haccept⟩ := hm.live _ (hm.closed i e he) (hm.target_pos i e he)
  have hboth := (hsame _ (isWord_append.mpr ⟨hword, hv⟩)).mp (Accepts.of_path hlonger haccept)
  obtain ⟨y, hreached, -⟩ := accepts_append_iff.mp hboth
  obtain ⟨k, hfirst, hlast⟩ := path_append_iff.mp hreached
  obtain rfl := hn.deterministic.eq_of_path hpath' hfirst
  obtain ⟨f, hf, hcf, -, hnil⟩ := hn.deterministic.path_cons_iff.mp hlast
  obtain rfl := hn.deterministic.path_nil_iff.mp hnil
  exact ⟨f.target, ⟨f, hf, hcf, rfl⟩, u ++ [c], hword, hlonger, hreached⟩

/-- Moves between states that belong together are on the same codes. -/
theorem Meets.moves_iff (hi : Meets m n i x) (hj : Meets m n j y) :
    n.Moves x c y ↔ m.Moves i c j := by
  have hsame' : ∀ w, IsWord w → (n.Accepts 0 w ↔ m.Accepts 0 w) := fun w hw => (hsame w hw).symm
  constructor
  · intro hmove
    obtain ⟨k, hmove', hk⟩ := hi.symm.exists_moves hn hm hsame' hmove
    rwa [hk.unique hn hm hsame' hj.symm] at hmove'
  · intro hmove
    obtain ⟨k, hmove', hk⟩ := hi.exists_moves hm hn hsame hmove
    rwa [hk.unique hm hn hsame hj] at hmove'

/-- Automata of this form that accept the same words are renamings of each other. -/
theorem Standard.exists_renames : ∃ name, Renames m n name := by
  have hsame' : ∀ w, IsWord w → (n.Accepts 0 w ↔ m.Accepts 0 w) := fun w hw => (hsame w hw).symm
  choose! name hlt hmeets using fun i (hi : i < m.size) =>
    exists_meets hm.toTrim hn.closed hn.pos hsame hi
  have hbij : Set.BijOn name {i | i < m.size} {i | i < n.size} := by
    refine ⟨hlt, ?_, ?_⟩
    · intro i hi j hj heq
      have hj' : Meets n m (name i) j := heq ▸ (hmeets j hj).symm
      exact (hmeets i hi).symm.unique hn hm hsame' hj'
    · intro x hx
      obtain ⟨i, hi, hmeet⟩ := exists_meets hn.toTrim hm.closed hm.pos hsame' hx
      exact ⟨i, hi, (hmeets i hi).unique hm hn hsame hmeet.symm⟩
  refine ⟨name, ?_, hbij, (hmeets 0 hm.pos).eq_zero hm hn, ?_, ?_⟩
  · have hranges : ∀ k, {i | i < k} = (Finset.range k : Set Nat) := fun k =>
      (Finset.coe_range k).symm
    have hfinite := hbij
    rw [hranges, hranges] at hfinite
    have hcard := Finset.card_nbij name hfinite.mapsTo hfinite.injOn hfinite.surjOn
    rw [Finset.card_range, Finset.card_range] at hcard
    exact hcard.symm
  · intro i hi
    exact (hmeets i hi).isFinal_eq hm hn hsame
  · intro i hi j hj
    exact hm.labelsBetween_eq hn fun c => (hmeets i hi).moves_iff hm hn hsame (hmeets j hj)

end Together

/-- The minimal automata of graphs that accept the same words differ in the numbers of
their states only. -/
theorem minimal_renames_of_accepts_iff (hg : g.Closed) (hs : s < g.size) (hh : h.Closed)
    (ht : t < h.size) (hsame : ∀ w, IsWord w → (g.Accepts s w ↔ h.Accepts t w)) :
    ∃ name, Renames (g.minimal s) (h.minimal t) name := by
  refine (standard_minimal hg hs).exists_renames (standard_minimal hh ht) fun w hw => ?_
  rw [accepts_minimal_iff hg hs hw, accepts_minimal_iff hh ht hw, hsame w hw]

/-- Where every state is final and goes on with one letter, the words that repeat that
letter are accepted. -/
theorem accepts_iff_forall_eq (hc : c ≠ Code.silent)
    (hstates : ∀ i < g.size, g.isFinal i = true ∧ g.edges i ≠ [] ∧
      ∀ e ∈ g.edges i, e.label = CodeSet.single c ∧ e.target < g.size) (hi : i < g.size) :
    g.Accepts i w ↔ ∀ d ∈ w, d = c := by
  constructor
  · rintro ⟨j, hpath, -⟩
    induction hpath with
    | nil => exact fun d hd => absurd hd List.not_mem_nil
    | @silent i j e w he hsilent _ ih =>
      obtain ⟨hlabel, htarget⟩ := (hstates i hi).2.2 e he
      exact ih htarget
    | @read i j e d w he hd _ _ ih =>
      obtain ⟨hlabel, htarget⟩ := (hstates i hi).2.2 e he
      rw [hlabel, CodeSet.mem_single] at hd
      exact List.forall_mem_cons.mpr ⟨hd, ih htarget⟩
  · intro hw
    induction w generalizing i with
    | nil => exact ⟨i, Path.nil i, (hstates i hi).1⟩
    | cons d w ih =>
      obtain ⟨rfl, hrest⟩ := List.forall_mem_cons.mp hw
      obtain ⟨e, he⟩ := List.exists_mem_of_ne_nil _ (hstates i hi).2.1
      obtain ⟨hlabel, htarget⟩ := (hstates i hi).2.2 e he
      have hmem : d ∈ e.label := hlabel ▸ CodeSet.mem_single.mpr rfl
      exact Accepts.of_path (Path.of_edge he hmem hc) (ih htarget hrest)

/-- The automaton of one letter, any number of times, that goes to and fro between two
states or stays where it is. -/
def letterRounds : Graph :=
  ⟨#[⟨true, [⟨CodeSet.single 97, 1⟩]⟩, ⟨true, [⟨CodeSet.single 97, 0⟩, ⟨CodeSet.single 97, 1⟩]⟩]⟩

/-- The two automata that are the same have two states each, and accept the letter. -/
theorem minimal_renames_letterRounds :
    letterLoop.Closed ∧ letterRounds.Closed ∧ (letterLoop.minimal 0).size = 2 ∧
      (letterLoop.minimal 0).Accepts 0 [97] ∧
        ∃ name, Renames (letterLoop.minimal 0) (letterRounds.minimal 0) name := by
  have hclosed : letterLoop.Closed := by decide
  have hclosed' : letterRounds.Closed := by decide
  have hsize : (letterLoop.minimal 0).size = 2 := by cbv
  have hletter : IsWord [97] :=
    isWord_cons.mpr ⟨⟨by decide, by decide, by decide⟩, isWord_nil⟩
  have haccepts : (letterLoop.minimal 0).Accepts 0 [97] := by
    refine (minimal_represents hclosed (by decide) _ hletter).mpr ?_
    exact (accepts_iff_forall_eq (c := 97) (by decide) (by decide) (by decide)).mpr (by decide)
  refine ⟨hclosed, hclosed', hsize, haccepts, ?_⟩
  refine minimal_renames_of_accepts_iff hclosed (by decide) hclosed' (by decide) fun w _ => ?_
  rw [accepts_iff_forall_eq (c := 97) (by decide) (by decide) (by decide),
    accepts_iff_forall_eq (c := 97) (by decide) (by decide) (by decide)]

end Graph
end Munch

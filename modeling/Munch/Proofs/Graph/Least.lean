import Mathlib.Data.Finset.Card
import Mathlib.Order.Interval.Finset.Nat
import Munch.Proofs.Graph.Minimal

/-!
# How small a minimal automaton is

Any two states of a minimal automaton other than the first accept different words.  The
first state may have a twin: the set it stands for holds the state that the second
reversal has added, which no other set does.  So where some word leads the language back
to itself, the language is represented twice, and the automaton has one state more than
the least one.

Main results:

- Theorem {lit}`Graph.eq_of_minimal_accepts_iff`: states other than the first differ.
- Theorem {lit}`Graph.exists_twin_iff_returns`: when the first state has a twin.
- Theorem {lit}`Graph.size_sub_le_of_distinct`: distinct states bound the size of every
  deterministic automaton of the language.
- Theorem {lit}`Graph.trim_copy_twin`: the twin is the start of a smaller automaton.
-/

namespace Munch
namespace Graph

/-! ## Notions -/

/-- A deterministic automaton without superfluous states: words reach every state, and
from every state but the first some word is accepted. -/
structure Trim (d : Graph) : Prop where
  pos : 0 < d.size
  closed : d.Closed
  deterministic : d.Deterministic
  reached : ∀ i < d.size, ∃ w, IsWord w ∧ d.Path 0 w i
  live : ∀ i < d.size, 0 < i → ∃ w, IsWord w ∧ d.Accepts i w

/-- Two states accept the same words. -/
def Equivalent (d : Graph) (i j : Nat) : Prop :=
  ∀ w, IsWord w → (d.Accepts i w ↔ d.Accepts j w)

/-- No two states accept the same words. -/
def Reduced (d : Graph) : Prop :=
  ∀ i < d.size, ∀ j < d.size, d.Equivalent i j → i = j

/-- The first state of an automaton accepts the words of a state of another. -/
def Represents (d g : Graph) (start : Nat) : Prop :=
  ∀ w, IsWord w → (d.Accepts 0 w ↔ g.Accepts start w)

/-- Some word other than the empty one leads the language, which is not empty, back to
itself. -/
def Returns (g : Graph) (start : Nat) : Prop :=
  (∃ w, IsWord w ∧ g.Accepts start w) ∧
    ∃ u, u ≠ [] ∧ IsWord u ∧ ∀ w, IsWord w → (g.Accepts start (u ++ w) ↔ g.Accepts start w)

variable {g d : Graph} {start i j k : Nat} {u w : List Int}

/-! ## States of a minimal automaton -/

section Minimal

variable (hclosed : g.Closed) (hstart : start < g.size)
include hclosed hstart

theorem minimal_represents : (g.minimal start).Represents g start :=
  fun _ hw => accepts_minimal_iff hclosed hstart hw

/-- Words reach every state of the automaton that is reversed last. -/
theorem exists_path_backward (hi : i < (g.backward start).size) :
    ∃ u, (g.backward start).Path 0 u i :=
  exists_path_reverseSubsets (symbolic_symbols hclosed hstart) hi

/-- States other than the first differ. -/
theorem eq_of_minimal_accepts_iff (hi : i < (g.minimal start).size)
    (hj : j < (g.minimal start).size) (hposi : 0 < i) (hposj : 0 < j)
    (heq : (g.minimal start).Equivalent i j) : i = j := by
  rw [minimal_eq, size_normalizeFrom] at hi hj
  refine eq_of_accepts_iff (symbolic_backward hclosed hstart) closed_reverseSubsets
    size_reverseSubsets_pos (deterministic_backward hclosed hstart)
    (inAlphabet_backward hclosed hstart) (fun _ hq => exists_path_backward hclosed hstart hq)
    hi hj hposi hposj fun w hw => ?_
  have hw' := heq w hw
  rwa [accepts_minimal_iff_forward hw, accepts_minimal_iff_forward hw] at hw'

theorem exists_accepts_minimal (hi : i < (g.minimal start).size) (hpos : 0 < i) :
    ∃ w, IsWord w ∧ (g.minimal start).Accepts i w := by
  rw [minimal_eq, size_normalizeFrom] at hi
  obtain ⟨w, hw, haccept⟩ := exists_accepts_of_pos (symbolic_backward hclosed hstart)
    closed_reverseSubsets size_reverseSubsets_pos (deterministic_backward hclosed hstart)
    (inAlphabet_backward hclosed hstart) (fun _ hq => exists_path_backward hclosed hstart hq)
    hi hpos
  exact ⟨w, hw, (accepts_minimal_iff_forward hw).mpr haccept⟩

/-- A minimal automaton has no superfluous states. -/
theorem trim_minimal : (g.minimal start).Trim where
  pos := size_minimal_pos
  closed := closed_minimal
  deterministic := deterministic_minimal hclosed hstart
  reached _ hi := exists_path_minimal hclosed hstart hi
  live _ hi hpos := exists_accepts_minimal hclosed hstart hi hpos

/-- No edge of a minimal automaton leads back to its first state. -/
theorem target_pos_of_mem_edges_minimal {e : Edge} (he : e ∈ (g.minimal start).edges i) :
    0 < e.target := by
  obtain ⟨c, hc⟩ := (deterministic_minimal hclosed hstart).nonempty i e he
  obtain ⟨f, hf, -, htarget⟩ := exists_edge_of_mem_normalizeFrom he hc
  exact htarget ▸ target_pos_of_mem_edges (symbolic_backward hclosed hstart) hf

/-- Only the empty word leads to the first state. -/
theorem pos_of_path_minimal (hu : u ≠ []) (hpath : (g.minimal start).Path 0 u i) : 0 < i :=
  hpath.pos_of_ne_nil (fun _ _ he => target_pos_of_mem_edges_minimal hclosed hstart he) hu

/-- A state reached by a word accepts what the word leaves of the language. -/
theorem accepts_minimal_iff_of_path (hu : IsWord u) (hpath : (g.minimal start).Path 0 u i)
    (hw : IsWord w) : (g.minimal start).Accepts i w ↔ g.Accepts start (u ++ w) := by
  rw [← (deterministic_minimal hclosed hstart).accepts_append_iff hpath]
  exact accepts_minimal_iff hclosed hstart (isWord_append.mpr ⟨hu, hw⟩)

/-- The first state has a twin exactly when some word leads the language back to itself. -/
theorem exists_twin_iff_returns :
    (∃ i < (g.minimal start).size, 0 < i ∧ (g.minimal start).Equivalent i 0) ↔
      g.Returns start := by
  constructor
  · rintro ⟨i, hi, hpos, heq⟩
    obtain ⟨v, hv, haccept⟩ := exists_accepts_minimal hclosed hstart hi hpos
    obtain ⟨u, hu, hpath⟩ := exists_path_minimal hclosed hstart hi
    refine ⟨⟨v, hv, (accepts_minimal_iff hclosed hstart hv).mp ((heq v hv).mp haccept)⟩,
      u, ?_, hu, fun w hw => ?_⟩
    · rintro rfl
      have hzero := (deterministic_minimal hclosed hstart).path_nil_iff.mp hpath
      exact absurd hzero (Nat.ne_of_gt hpos)
    · rw [← accepts_minimal_iff_of_path hclosed hstart hu hpath hw, heq w hw,
        accepts_minimal_iff hclosed hstart hw]
  · rintro ⟨⟨v, hv, haccept⟩, u, hne, hu, hback⟩
    -- The state that the returning word leads to is the twin.
    have hboth := (accepts_minimal_iff hclosed hstart (isWord_append.mpr ⟨hu, hv⟩)).mpr
      ((hback v hv).mpr haccept)
    obtain ⟨i, hpath, -⟩ := accepts_append_iff.mp hboth
    have hi := closed_minimal.lt_of_path size_minimal_pos hpath
    refine ⟨i, hi, pos_of_path_minimal hclosed hstart hne hpath, fun w hw => ?_⟩
    rw [accepts_minimal_iff_of_path hclosed hstart hu hpath hw, hback w hw,
      accepts_minimal_iff hclosed hstart hw]

/-- The first state is the only one that can have a twin. -/
theorem reduced_minimal_iff : (g.minimal start).Reduced ↔ ¬g.Returns start := by
  rw [← exists_twin_iff_returns hclosed hstart]
  constructor
  · rintro hreduced ⟨i, hi, hpos, heq⟩
    exact absurd (hreduced i hi 0 size_minimal_pos heq) (Nat.ne_of_gt hpos)
  · intro hnone i hi j hj heq
    rcases Nat.eq_zero_or_pos i with rfl | hposi
    · rcases Nat.eq_zero_or_pos j with rfl | hposj
      · rfl
      · exact absurd ⟨j, hj, hposj, fun w hw => (heq w hw).symm⟩ hnone
    · rcases Nat.eq_zero_or_pos j with rfl | hposj
      · exact absurd ⟨i, hi, hposi, heq⟩ hnone
      · exact eq_of_minimal_accepts_iff hclosed hstart hi hj hposi hposj heq

end Minimal

/-! ## Distinct states bound the size -/

/-- Some word leads to both of two states. -/
def Meets (m d : Graph) (i x : Nat) : Prop :=
  ∃ u, IsWord u ∧ m.Path 0 u i ∧ d.Path 0 u x

section Bound

variable {m : Graph} (hm : m.Trim) (hd : d.Closed) (hdet : d.Deterministic) (hpos : 0 < d.size)
  (hsame : ∀ w, IsWord w → (m.Accepts 0 w ↔ d.Accepts 0 w))
include hm hd hdet hpos hsame

omit hdet in
/-- Every state of a trim automaton meets one of any automaton of the language. -/
theorem exists_meets (hi : i < m.size) : ∃ x < d.size, Meets m d i x := by
  rcases Nat.eq_zero_or_pos i with rfl | hposi
  · exact ⟨0, hpos, [], isWord_nil, Path.nil 0, Path.nil 0⟩
  · obtain ⟨u, hu, hpath⟩ := hm.reached i hi
    obtain ⟨v, hv, haccept⟩ := hm.live i hi hposi
    have hboth := (hsame _ (isWord_append.mpr ⟨hu, hv⟩)).mp (Accepts.of_path hpath haccept)
    obtain ⟨x, hpath', -⟩ := accepts_append_iff.mp hboth
    exact ⟨x, hd.lt_of_path hpos hpath', u, hu, hpath, hpath'⟩

omit hd hpos in
theorem accepts_iff_of_meets {x : Nat} (hmeets : Meets m d i x) (hw : IsWord w) :
    m.Accepts i w ↔ d.Accepts x w := by
  obtain ⟨u, hu, hpath, hpath'⟩ := hmeets
  rw [← hm.deterministic.accepts_append_iff hpath, ← hdet.accepts_append_iff hpath',
    hsame _ (isWord_append.mpr ⟨hu, hw⟩)]

/-- Distinct states of a trim automaton bound the size of every deterministic automaton
of the language. -/
theorem size_sub_le_of_distinct
    (hdistinct : ∀ i < m.size, ∀ j < m.size, k ≤ i → k ≤ j → m.Equivalent i j → i = j) :
    m.size - k ≤ d.size := by
  choose! f hlt hmeets using fun i (hi : i < m.size) =>
    exists_meets hm hd hpos hsame hi
  have hmaps : Set.MapsTo f (Finset.Ico k m.size) (Finset.range d.size) := by
    intro i hi
    exact Finset.mem_coe.mpr (Finset.mem_range.mpr (hlt i (Finset.mem_Ico.mp hi).2))
  have hinj : Set.InjOn f (Finset.Ico k m.size) := by
    intro i hi j hj heq
    obtain ⟨hki, hi⟩ := Finset.mem_Ico.mp hi
    obtain ⟨hkj, hj⟩ := Finset.mem_Ico.mp hj
    refine hdistinct i hi j hj hki hkj fun w hw => ?_
    rw [accepts_iff_of_meets hm hdet hsame (hmeets i hi) hw, heq,
      accepts_iff_of_meets hm hdet hsame (hmeets j hj) hw]
  have hcard := Finset.card_le_card_of_injOn f hmaps hinj
  rwa [Nat.card_Ico, Finset.card_range] at hcard

end Bound

/-! ## The twin is the start of a smaller automaton -/

/-- In a deterministic automaton one edge after the other is taken on some letters. -/
theorem Deterministic.exists_path_of_leads (hdet : d.Deterministic) (hall : d.InAlphabet)
    (hleads : Leads d.successors i j) : ∃ w, IsWord w ∧ d.Path i w j := by
  induction hleads with
  | refl => exact ⟨[], isWord_nil, Path.nil i⟩
  | @tail j k _ hstep ih =>
    obtain ⟨w, hw, hpath⟩ := ih
    obtain ⟨e, he, rfl⟩ := mem_successors_iff.mp hstep
    obtain ⟨c, hc⟩ := hdet.nonempty j e he
    have hne := hdet.ne_silent he hc
    have hboth := hpath.append (Path.of_edge he hc hne)
    exact ⟨w ++ [c], hall.isWord_of_path hboth, hboth⟩

/-- A copy of a live part of a trim automaton is trim. -/
theorem Trim.copy {m : Graph} (hm : m.Trim) (hall : m.InAlphabet) (hi : i < m.size)
    (hlive : ∀ j ∈ m.reachable i, ∃ w, IsWord w ∧ m.Accepts j w) : (m.copy i).Trim where
  pos := size_copy_pos hi
  closed := closed_copy hm.closed
  deterministic := hm.deterministic.copy
  reached k hk := by
    obtain ⟨j, hj, rfl⟩ := exists_eq_copyInto_name empty (Nat.zero_le k) hk
    have hleads := (mem_reachable_iff hm.closed hi).mp hj
    obtain ⟨w, hw, hpath⟩ := hm.deterministic.exists_path_of_leads hall hleads
    have hcopied := (embeds_copyInto empty [i] hm.closed).path (mem_reachableFrom_root hi) hpath
    rw [copyInto_name_root hi] at hcopied
    exact ⟨w, hw, hcopied⟩
  live k hk _ := by
    obtain ⟨j, hj, rfl⟩ := exists_eq_copyInto_name empty (Nat.zero_le k) hk
    obtain ⟨w, hw, haccept⟩ := hlive j hj
    have hembeds := embeds_copyInto empty [i] hm.closed
    exact ⟨w, hw, (hembeds.accepts_iff (fun j hj => isFinal_copyInto_name hj) hj).mpr haccept⟩

section Twin

variable (hclosed : g.Closed) (hstart : start < g.size)
include hclosed hstart

/-- What a state other than the first leads to does not hold the first. -/
theorem pos_of_mem_reachable_minimal (hi : i < (g.minimal start).size) (hpos : 0 < i)
    (hj : j ∈ (g.minimal start).reachable i) : 0 < j := by
  have hleads := (mem_reachable_iff closed_minimal hi).mp hj
  induction hleads with
  | refl => exact hpos
  | tail hinit hstep _ =>
    obtain ⟨e, he, rfl⟩ := mem_successors_iff.mp hstep
    exact target_pos_of_mem_edges_minimal hclosed hstart he

theorem size_copy_twin_lt (hi : i < (g.minimal start).size) (hpos : 0 < i) :
    ((g.minimal start).copy i).size < (g.minimal start).size := by
  have hsub : ((g.minimal start).reachable i).toFinset ⊆ Finset.Ico 1 (g.minimal start).size := by
    intro j hj
    have hmem := List.mem_toFinset.mp hj
    exact Finset.mem_Ico.mpr ⟨pos_of_mem_reachable_minimal hclosed hstart hi hpos hmem,
      lt_size_of_mem_reachableFrom hmem⟩
  have hcard := Finset.card_le_card hsub
  rw [List.toFinset_card_of_nodup nodup_reachable, Nat.card_Ico] at hcard
  rw [size_copy]
  omega

/-- The twin is the start of a smaller trim automaton of the language. -/
theorem trim_copy_twin (hi : i < (g.minimal start).size) (hpos : 0 < i)
    (heq : (g.minimal start).Equivalent i 0) :
    ((g.minimal start).copy i).Trim ∧ ((g.minimal start).copy i).Represents g start := by
  constructor
  · refine (trim_minimal hclosed hstart).copy (inAlphabet_minimal hclosed hstart) hi fun j hj => ?_
    exact exists_accepts_minimal hclosed hstart (lt_size_of_mem_reachableFrom hj)
      (pos_of_mem_reachable_minimal hclosed hstart hi hpos hj)
  · intro w hw
    rw [accepts_copy_iff closed_minimal hi, heq w hw, accepts_minimal_iff hclosed hstart hw]

/-- Every trim automaton of the language has at least all states but one. -/
theorem size_minimal_le_succ (hd : d.Trim) (hsame : d.Represents g start) :
    (g.minimal start).size ≤ d.size + 1 := by
  have hbound := size_sub_le_of_distinct (k := 1) (trim_minimal hclosed hstart) hd.closed
    hd.deterministic hd.pos
    (fun w hw => (accepts_minimal_iff hclosed hstart hw).trans (hsame w hw).symm)
    fun i hi j hj hposi hposj => eq_of_minimal_accepts_iff hclosed hstart hi hj hposi hposj
  omega

/-- No trim automaton of the language is smaller exactly when no word leads the language
back to itself. -/
theorem least_minimal_iff :
    (∀ d : Graph, d.Trim → d.Represents g start → (g.minimal start).size ≤ d.size) ↔
      ¬g.Returns start := by
  constructor
  · intro hleast hreturns
    obtain ⟨i, hi, hpos, heq⟩ := (exists_twin_iff_returns hclosed hstart).mpr hreturns
    obtain ⟨htrim, hsame⟩ := trim_copy_twin hclosed hstart hi hpos heq
    have hle := hleast _ htrim hsame
    exact absurd (size_copy_twin_lt hclosed hstart hi hpos) (Nat.not_lt.mpr hle)
  · intro hnot d hd hsame
    have hreduced := (reduced_minimal_iff hclosed hstart).mpr hnot
    exact size_sub_le_of_distinct (k := 0) (trim_minimal hclosed hstart) hd.closed
      hd.deterministic hd.pos
      (fun w hw => (accepts_minimal_iff hclosed hstart hw).trans (hsame w hw).symm)
      fun i hi j hj _ _ heq => hreduced i hi j hj heq

/-- Two states of the trim result accept the same words, and a smaller trim automaton of
the language exists, exactly when some word leads the language back to itself; the first
state is then one of the two, and the result has one state too many. -/
theorem minimal_is_least_iff_not_returns :
    (g.minimal start).Trim ∧ (g.minimal start).Represents g start ∧
      ((g.minimal start).Reduced ↔ ¬g.Returns start) ∧
      ((∀ d : Graph, d.Trim → d.Represents g start → (g.minimal start).size ≤ d.size) ↔
        ¬g.Returns start) ∧
      (∀ i < (g.minimal start).size, ∀ j < (g.minimal start).size, 0 < i → 0 < j →
        (g.minimal start).Equivalent i j → i = j) ∧
      ∀ d : Graph, d.Trim → d.Represents g start → (g.minimal start).size ≤ d.size + 1 := by
  refine ⟨trim_minimal hclosed hstart, minimal_represents hclosed hstart,
    reduced_minimal_iff hclosed hstart, least_minimal_iff hclosed hstart, ?_, ?_⟩
  · intro i hi j hj hposi hposj heq
    exact eq_of_minimal_accepts_iff hclosed hstart hi hj hposi hposj heq
  · intro d hd hsame
    exact size_minimal_le_succ hclosed hstart hd hsame

end Twin

/-! ## A loop -/

/-- The automaton of one letter, any number of times. -/
def letterLoop : Graph := ⟨#[⟨true, [⟨CodeSet.single 97, 0⟩]⟩]⟩

theorem mem_edges_letterLoop {e : Edge} (he : e ∈ letterLoop.edges i) :
    i = 0 ∧ e = ⟨CodeSet.single 97, 0⟩ := by
  have hi : i < 1 := lt_size_of_mem_edges he
  obtain rfl := Nat.lt_one_iff.mp hi
  exact ⟨rfl, List.mem_singleton.mp he⟩

/-- The letter leads the language of the loop back to itself. -/
theorem returns_letterLoop : letterLoop.Returns 0 := by
  have hletter : Code.IsLetter 97 := ⟨by decide, by decide, by decide⟩
  refine ⟨⟨[], isWord_nil, 0, Path.nil 0, rfl⟩, [97], List.cons_ne_nil _ _,
    isWord_cons.mpr ⟨hletter, isWord_nil⟩, fun w _ => ?_⟩
  constructor
  · intro haccept
    obtain ⟨j, hfirst, hrest⟩ := accepts_append_iff.mp haccept
    obtain ⟨k, e, he, -, -, -, hnil⟩ := hfirst.exists_edge
    obtain ⟨-, rfl⟩ := mem_edges_letterLoop he
    exact Accepts.of_path hnil hrest
  · intro haccept
    have hedge : ⟨CodeSet.single 97, 0⟩ ∈ letterLoop.edges 0 := List.mem_singleton_self _
    exact Accepts.of_path (Path.of_edge hedge (CodeSet.mem_single.mpr rfl) hletter.2.2) haccept

/-- The minimal automaton of the loop has two states that accept the same words. -/
theorem not_reduced_minimal_letterLoop : ¬(letterLoop.minimal 0).Reduced := by
  intro hreduced
  exact (reduced_minimal_iff (by decide) (by decide)).mp hreduced returns_letterLoop

theorem minimal_letterLoop :
    letterLoop.Closed ∧ 0 < letterLoop.size ∧ letterLoop.Returns 0 ∧
      ¬(letterLoop.minimal 0).Reduced ∧
      ¬∀ d : Graph, d.Trim → d.Represents letterLoop 0 → (letterLoop.minimal 0).size ≤ d.size := by
  have hclosed : letterLoop.Closed := by decide
  have hstart : 0 < letterLoop.size := by decide
  obtain ⟨-, -, hreduced, hleast, -, -⟩ := minimal_is_least_iff_not_returns hclosed hstart
  refine ⟨hclosed, hstart, returns_letterLoop, ?_, ?_⟩
  · intro h
    exact hreduced.mp h returns_letterLoop
  · intro h
    exact hleast.mp h returns_letterLoop

end Graph
end Munch

import Mathlib.Computability.Language
import Mathlib.Order.CompletePartialOrder
import Munch.Proofs.Graph.Path

/-!
# Languages of paths

The words that lead from one state to another form a language.  One more edge from
`s` to `t` adds the words that come to `s`, take the edge, and go round from `t` to `s`
and over the edge again as often as they like.

Main results:

- Theorem {lit}`Graph.words_addEdge`: what one more edge does to the languages of paths.
- Theorem {lit}`Graph.words_addSilent`: the same for an edge without input.
-/

open scoped Computability

namespace Munch
namespace Graph

/-- The words that lead from a state to another. -/
def words (g : Graph) (i j : Nat) : Language Int := {w | g.Path i w j}

/-- What can be read on an edge with a label. -/
def steps (label : CodeSet) : Language Int :=
  {w | (w = [] ∧ Code.silent ∈ label) ∨ ∃ c, w = [c] ∧ c ∈ label ∧ c ≠ Code.silent}

variable {g h : Graph} {i j k s t : Nat} {w : List Int} {label : CodeSet} {e : Edge}

/-- The words from one state to another are those its paths spell. -/
theorem mem_words : w ∈ g.words i j ↔ g.Path i w j :=
  Iff.rfl

/-- A label is crossed by the empty word if it is silent, and by each of its letters. -/
theorem mem_steps : w ∈ steps label ↔
    (w = [] ∧ Code.silent ∈ label) ∨ ∃ c, w = [c] ∧ c ∈ label ∧ c ≠ Code.silent :=
  Iff.rfl

/-! ## Composition -/

/-- The empty word leads from a state to itself. -/
theorem one_le_words (g : Graph) (i : Nat) : 1 ≤ g.words i i := by
  intro w hw
  obtain rfl := (Language.mem_one w).mp hw
  exact Path.nil i

/-- Words to a state followed by words from it lead on. -/
theorem words_mul_le (g : Graph) (i j k : Nat) : g.words i j * g.words j k ≤ g.words i k := by
  intro w hw
  obtain ⟨u, hu, v, hv, rfl⟩ := Language.mem_mul.mp hw
  exact Path.append hu hv

/-- Reading an edge and going on from its target. -/
theorem steps_mul_le (he : e ∈ g.edges i) : steps e.label * g.words e.target j ≤ g.words i j := by
  intro w hw
  obtain ⟨u, hu, v, hv, rfl⟩ := Language.mem_mul.mp hw
  rcases mem_steps.mp hu with ⟨rfl, hsilent⟩ | ⟨c, rfl, hc, hne⟩
  · exact Path.silent he hsilent hv
  · exact Path.read he hc hne hv

/-- To bound the words that lead to a state it is enough to look at first steps. -/
theorem words_le_of_steps {r : Nat → Language Int} (hnil : 1 ≤ r j)
    (hstep : ∀ i, ∀ e ∈ g.edges i, steps e.label * r e.target ≤ r i) (i : Nat) :
    g.words i j ≤ r i := by
  intro w hpath
  induction hpath with
  | nil j => exact hnil (Language.nil_mem_one)
  | silent he hsilent _ ih =>
    refine hstep _ _ he ?_
    exact Language.append_mem_mul (mem_steps.mpr (Or.inl ⟨rfl, hsilent⟩)) (ih hnil)
  | read he hc hne _ ih =>
    refine hstep _ _ he ?_
    exact Language.append_mem_mul (mem_steps.mpr (Or.inr ⟨_, rfl, hc, hne⟩)) (ih hnil)

/-! ## Unreachable and unchanged parts -/

/-- Nothing leads out of a closed part. -/
theorem words_eq_zero {part : Set Nat} (hpart : g.IsPart part) (hi : i ∈ part) (hj : j ∉ part) :
    g.words i j = 0 := by
  ext w
  constructor
  · intro hpath
    exact absurd (hpart.mem_of_path hi hpath) hj
  · intro hfalse
    exact absurd hfalse (Language.notMem_zero w)

/-- The words of a part depend on its edges alone. -/
theorem words_congr {part : Set Nat} (hpart : g.IsPart part)
    (hedges : ∀ i ∈ part, h.edges i = g.edges i) (hi : i ∈ part) : h.words i j = g.words i j := by
  ext w
  exact path_congr hpart hedges hi

/-- A new state leaves the words as they are. -/
@[simp]
theorem words_addState (b : Bool) : (g.addState b).words i j = g.words i j := by
  ext w
  exact path_congr_of_edges fun k => edges_addState g b k

/-- Nothing but the empty word leads from a state without edges. -/
theorem words_of_edges_eq_nil (hedges : g.edges i = []) :
    g.words i j = if j = i then 1 else 0 := by
  ext w
  split
  · rename_i hji
    rw [Language.mem_one]
    constructor
    · intro hpath
      exact (hpath.eq_of_edges_eq_nil hedges).1
    · rintro rfl
      exact hji ▸ Path.nil i
  · rename_i hji
    constructor
    · intro hpath
      exact absurd (hpath.eq_of_edges_eq_nil hedges).2 hji
    · intro hfalse
      exact absurd hfalse (Language.notMem_zero w)

/-! ## One more edge -/

/-- A new edge is the only one that is added. -/
theorem mem_edges_addEdge_iff (hs : s < g.size) :
    e ∈ (g.addEdge s label t).edges i ↔ e ∈ g.edges i ∨ i = s ∧ e = ⟨label, t⟩ := by
  constructor
  · exact mem_edges_of_mem_addEdge
  · rintro (hold | ⟨rfl, rfl⟩)
    · exact mem_edges_addEdge_of_mem hold _ _ _
    · rw [edges_addEdge, if_pos ⟨rfl, hs⟩]
      exact List.mem_append_right _ (List.mem_singleton_self _)

/-- A new edge takes no word away. -/
theorem words_le_addEdge (g : Graph) (s : Nat) (label : CodeSet) (t i j : Nat) :
    g.words i j ≤ (g.addEdge s label t).words i j := by
  intro w hpath
  exact Path.mono (fun i e he => mem_edges_addEdge_of_mem he s label t) hpath

/-- What one more edge does to the languages of paths. -/
theorem words_addEdge (hs : s < g.size) :
    (g.addEdge s label t).words i j =
      g.words i j + g.words i s * (steps label * g.words t s)∗ * (steps label * g.words t j) := by
  apply le_antisymm
  · -- What the new edge is followed by is bounded at its source.
    have hnew : steps label * (g.words t j +
        g.words t s * (steps label * g.words t s)∗ * (steps label * g.words t j)) ≤
          g.words s s * (steps label * g.words t s)∗ * (steps label * g.words t j) := by
      calc steps label * (g.words t j +
              g.words t s * (steps label * g.words t s)∗ * (steps label * g.words t j))
          = (1 + steps label * g.words t s * (steps label * g.words t s)∗) *
              (steps label * g.words t j) := by
            rw [mul_add, add_mul, one_mul]
            simp only [mul_assoc]
        _ = 1 * (steps label * g.words t s)∗ * (steps label * g.words t j) := by
            rw [one_add_mul_kstar, one_mul]
        _ ≤ g.words s s * (steps label * g.words t s)∗ * (steps label * g.words t j) := by
            gcongr
            exact one_le_words g s
    refine words_le_of_steps
      (r := fun i => g.words i j +
        g.words i s * (steps label * g.words t s)∗ * (steps label * g.words t j)) ?_ ?_ i
    · exact le_add_right (one_le_words g j)
    · intro i e he
      rcases (mem_edges_addEdge_iff hs).mp he with hold | ⟨rfl, rfl⟩
      · rw [mul_add, ← mul_assoc (steps e.label) (_ * _), ← mul_assoc (steps e.label) (g.words _ s)]
        gcongr
        · exact steps_mul_le hold
        · exact steps_mul_le hold
      · exact hnew.trans le_add_self
  · have hedge : ⟨label, t⟩ ∈ (g.addEdge s label t).edges s :=
      (mem_edges_addEdge_iff hs).mpr (Or.inr ⟨rfl, rfl⟩)
    have hround : (steps label * g.words t s)∗ ≤ (g.addEdge s label t).words s s := by
      refine kstar_le_of_mul_le_right (one_le_words _ _) ?_
      calc steps label * g.words t s * (g.addEdge s label t).words s s
          ≤ steps label * (g.addEdge s label t).words t s * (g.addEdge s label t).words s s := by
            gcongr
            exact words_le_addEdge g s label t t s
        _ ≤ (g.addEdge s label t).words s s * (g.addEdge s label t).words s s := by
            gcongr
            exact steps_mul_le hedge
        _ ≤ (g.addEdge s label t).words s s := words_mul_le _ s s s
    refine add_le (words_le_addEdge g s label t i j) ?_
    calc g.words i s * (steps label * g.words t s)∗ * (steps label * g.words t j)
        ≤ (g.addEdge s label t).words i s * (g.addEdge s label t).words s s *
            (steps label * (g.addEdge s label t).words t j) := by
          gcongr
          · exact words_le_addEdge g s label t i s
          · exact words_le_addEdge g s label t t j
      _ ≤ (g.addEdge s label t).words i s * (g.addEdge s label t).words s j := by
          gcongr
          · exact words_mul_le _ i s s
          · exact steps_mul_le hedge
      _ ≤ (g.addEdge s label t).words i j := words_mul_le _ i s j

/-- A silent edge is crossed by the empty word alone. -/
theorem steps_silent : steps CodeSet.silent = 1 := by
  ext w
  rw [mem_steps, Language.mem_one]
  constructor
  · rintro (⟨rfl, -⟩ | ⟨c, rfl, hc, hne⟩)
    · rfl
    · exact absurd (CodeSet.mem_silent.mp hc) hne
  · rintro rfl
    exact Or.inl ⟨rfl, CodeSet.mem_silent.mpr rfl⟩

/-- What one more edge without input does to the languages of paths. -/
theorem words_addSilent (hs : s < g.size) :
    (g.addSilent s t).words i j =
      g.words i j + g.words i s * (g.words t s)∗ * g.words t j := by
  rw [addSilent, words_addEdge hs, steps_silent, one_mul, one_mul]

/-- Edges out of a state that nothing comes to add nothing elsewhere. -/
theorem words_addSilent_of_source (hs : s < g.size) (hi : g.words i s = 0) :
    (g.addSilent s t).words i j = g.words i j := by
  rw [words_addSilent hs, hi, zero_mul, zero_mul, add_zero]

/-- Edges into a state that leads nowhere add nothing elsewhere. -/
theorem words_addSilent_of_sink (hs : s < g.size) (hj : g.words t j = 0) :
    (g.addSilent s t).words i j = g.words i j := by
  rw [words_addSilent hs, hj, mul_zero, add_zero]

/-- A union has the same repetitions as one side iff the other side is among them. -/
theorem kstar_add_eq_iff {l r : Language Int} : (l + r)∗ = l∗ ↔ r ≤ l∗ := by
  constructor
  · intro heq
    calc r ≤ l + r := le_add_self
      _ ≤ (l + r)∗ := le_kstar
      _ = l∗ := heq
  · intro hle
    apply le_antisymm
    · calc (l + r)∗ ≤ (l∗)∗ := kstar_mono (add_le le_kstar hle)
        _ = l∗ := kstar_idem l
    · exact kstar_mono le_self_add

/-- A language with the empty word in front of its repetitions adds nothing to them. -/
theorem mul_kstar_of_one_le {l : Language Int} (hl : 1 ≤ l) : l * l∗ = l∗ := by
  refine le_antisymm mul_kstar_le_kstar ?_
  calc l∗ = 1 * l∗ := (one_mul _).symm
    _ ≤ l * l∗ := by gcongr

/-- An edge back lets what lies between its ends be gone through again. -/
theorem words_addSilent_back (hs : s < g.size) :
    (g.addSilent s t).words t s = g.words t s * (g.words t s)∗ := by
  rw [words_addSilent hs]
  calc g.words t s + g.words t s * (g.words t s)∗ * g.words t s
      = g.words t s * (1 + (g.words t s)∗ * g.words t s) := by rw [mul_add, mul_one, mul_assoc]
    _ = g.words t s * (g.words t s)∗ := by rw [one_add_kstar_mul]

/-- What led back to the target of such an edge does so after any number of rounds. -/
theorem words_addSilent_target (hs : s < g.size) :
    (g.addSilent s t).words t t = (g.words t s)∗ * g.words t t := by
  rw [words_addSilent hs]
  calc g.words t t + g.words t s * (g.words t s)∗ * g.words t t
      = (1 + g.words t s * (g.words t s)∗) * g.words t t := by rw [add_mul, one_mul]
    _ = (g.words t s)∗ * g.words t t := by rw [one_add_mul_kstar]

section Fork

variable {n u : Nat} (hn : n < g.size) (hedges : g.edges n = []) (ht : g.words t n = 0)
  (hu : g.words u n = 0)
include hn hedges ht hu

/-- A state with two silent edges leads to what their targets lead to. -/
theorem words_fork (hj : j ≠ n) :
    ((g.addSilent n t).addSilent n u).words n j = g.words t j + g.words u j := by
  have hsize : n < (g.addSilent n t).size := by rwa [size_addSilent]
  have hnone : g.words n j = 0 := by rw [words_of_edges_eq_nil hedges, if_neg hj]
  have hself : g.words n n = 1 := by rw [words_of_edges_eq_nil hedges, if_pos rfl]
  have hfirst : (g.addSilent n t).words n j = g.words t j := by
    rw [words_addSilent hn, hnone, hself, ht, kstar_zero, one_mul, one_mul, zero_add]
  have hself' : (g.addSilent n t).words n n = 1 := by
    rw [words_addSilent hn, hself, ht, mul_zero, add_zero]
  rw [words_addSilent hsize, hfirst, hself', words_addSilent_of_source hn hu,
    words_addSilent_of_source hn hu, hu, kstar_zero, one_mul, one_mul]

/-- Only the empty word leads back to that state. -/
theorem words_fork_self : ((g.addSilent n t).addSilent n u).words n n = 1 := by
  have hsize : n < (g.addSilent n t).size := by rwa [size_addSilent]
  have hu' : (g.addSilent n t).words u n = 0 := by
    rw [words_addSilent_of_source hn hu]
    exact hu
  rw [words_addSilent_of_sink hsize hu', words_addSilent_of_sink hn ht,
    words_of_edges_eq_nil hedges, if_pos rfl]

end Fork

section Join

variable {x s' : Nat} (hs : s < g.size) (hs' : s' < g.size) (hedges : g.edges x = [])
  (hsx : s ≠ x) (hsx' : s' ≠ x)
include hs hs' hedges hsx hsx'

/-- A state with two silent edges to it is reached by what reaches their sources. -/
theorem words_join :
    ((g.addSilent s x).addSilent s' x).words i x = g.words i x + g.words i s + g.words i s' := by
  have hsize : s' < (g.addSilent s x).size := by rwa [size_addSilent]
  have hnone : ∀ j, j ≠ x → g.words x j = 0 := by
    intro j hj
    rw [words_of_edges_eq_nil hedges, if_neg hj]
  have hself : g.words x x = 1 := by rw [words_of_edges_eq_nil hedges, if_pos rfl]
  have hnone' : (g.addSilent s x).words x s' = 0 := by
    rw [words_addSilent_of_sink hs (hnone s' hsx'), hnone s' hsx']
  have hself' : (g.addSilent s x).words x x = 1 := by
    rw [words_addSilent hs, hself, hnone s hsx, zero_mul, zero_mul, add_zero]
  rw [words_addSilent hsize, hnone', hself', words_addSilent_of_sink hs (hnone s' hsx'),
    words_addSilent hs, hself, hnone s hsx, kstar_zero, mul_one, mul_one, mul_one, mul_one]

omit hsx hsx' in
/-- Two silent edges into a state that leads nowhere change no other words. -/
theorem words_join_of_sink (hj : j ≠ x) :
    ((g.addSilent s x).addSilent s' x).words i j = g.words i j := by
  have hsize : s' < (g.addSilent s x).size := by rwa [size_addSilent]
  have hnone : g.words x j = 0 := by rw [words_of_edges_eq_nil hedges, if_neg hj]
  have hnone' : (g.addSilent s x).words x j = 0 := by
    rw [words_addSilent_of_sink hs hnone, hnone]
  rw [words_addSilent_of_sink hsize hnone', words_addSilent_of_sink hs hnone]

end Join

end Graph
end Munch

import Munch.Proofs.Graph.Copy
import Munch.Proofs.Graph.ReverseSubsets

/-!
# Minimal automata

The automaton that two determinized reversals leave accepts the words of the given one,
it is deterministic, and words reach all of its states.

Main results:

- Theorem {lit}`Graph.accepts_minimal_iff`: the language of the result.
- Theorem {lit}`Graph.deterministic_minimal`: the shape of the result.
- Theorem {lit}`Graph.exists_path_minimal`: words reach all of its states.
-/

namespace Munch
namespace Graph

variable {g : Graph} {start i j : Nat} {w : List Int}

/-! ## The stages -/

/-- The given automaton from its start on, with symbols for labels. -/
def symbols (g : Graph) (start : Nat) : Graph := (g.copy start).cutEdges 0

/-- The deterministic automaton of the reversed words. -/
def backward (g : Graph) (start : Nat) : Graph := (g.symbols start).reverseSubsets 0

/-- The deterministic automaton of the words, before its labels are united. -/
def forward (g : Graph) (start : Nat) : Graph := (g.backward start).reverseSubsets 0

/-- The minimal automaton is the one reversed twice, with its states put in order. -/
theorem minimal_eq : g.minimal start = (g.forward start).normalizeFrom 0 :=
  rfl

/-- There is a state to start from before any reversal. -/
theorem size_symbols_pos (hstart : start < g.size) : 0 < (g.symbols start).size := by
  rw [symbols, size_cutEdges]
  exact size_copy_pos hstart

/-- The minimal automaton has a state. -/
theorem size_minimal_pos : 0 < (g.minimal start).size := by
  rw [minimal_eq, size_normalizeFrom]
  exact size_reverseSubsets_pos

/-- Its edges lead to its own states. -/
theorem closed_minimal : (g.minimal start).Closed :=
  closed_normalizeFrom closed_reverseSubsets

/-- Uniting labels keeps what each state accepts. -/
theorem accepts_minimal_iff_forward (hw : IsWord w) :
    (g.minimal start).Accepts i w ↔ (g.forward start).Accepts i w :=
  accepts_normalizeFrom_iff hw

section Stages

variable (hclosed : g.Closed) (hstart : start < g.size)
include hclosed hstart

/-- Cutting edges to symbols leaves them within the graph. -/
theorem closed_symbols : (g.symbols start).Closed :=
  closed_cutEdges (fun _ hi => mem_reachable_copy hclosed hstart hi) (closed_copy hclosed)

theorem symbolic_symbols : (g.symbols start).Symbolic :=
  symbolic_cutEdges fun _ hi => mem_reachable_copy hclosed hstart hi

theorem inAlphabet_symbols : (g.symbols start).InAlphabet :=
  inAlphabet_cutEdges fun _ hi => mem_reachable_copy hclosed hstart hi

/-- The symbols spell the words of the graph. -/
theorem accepts_symbols_iff (hw : IsWord w) :
    (g.symbols start).Accepts 0 w ↔ g.Accepts start w := by
  rw [symbols, accepts_cutEdges_iff hw, accepts_copy_iff hclosed hstart]

theorem symbolic_backward : (g.backward start).Symbolic :=
  symbolic_reverseSubsets (symbolic_symbols hclosed hstart)

theorem deterministic_backward : (g.backward start).Deterministic :=
  deterministic_reverseSubsets (symbolic_symbols hclosed hstart)

theorem inAlphabet_backward : (g.backward start).InAlphabet :=
  inAlphabet_reverseSubsets (symbolic_symbols hclosed hstart) (inAlphabet_symbols hclosed hstart)

/-- The automaton that is reversed once accepts the words backwards. -/
theorem accepts_backward_iff (hw : IsWord w) :
    (g.backward start).Accepts 0 w ↔ g.Accepts start w.reverse := by
  rw [backward, accepts_reverseSubsets_iff (symbolic_symbols hclosed hstart)
    (closed_symbols hclosed hstart) (size_symbols_pos hstart),
    accepts_symbols_iff hclosed hstart (isWord_reverse.mpr hw)]

theorem deterministic_forward : (g.forward start).Deterministic :=
  deterministic_reverseSubsets (symbolic_backward hclosed hstart)

theorem inAlphabet_forward : (g.forward start).InAlphabet :=
  inAlphabet_reverseSubsets (symbolic_backward hclosed hstart) (inAlphabet_backward hclosed hstart)

/-- The automaton that is reversed twice accepts the words of the graph. -/
theorem accepts_forward_iff (hw : IsWord w) :
    (g.forward start).Accepts 0 w ↔ g.Accepts start w := by
  rw [forward, accepts_reverseSubsets_iff (symbolic_backward hclosed hstart)
    closed_reverseSubsets size_reverseSubsets_pos,
    accepts_backward_iff hclosed hstart (isWord_reverse.mpr hw), List.reverse_reverse]

/-! ## The result -/

/-- The minimal automaton reads nothing but the codes that there are. -/
theorem inAlphabet_minimal : (g.minimal start).InAlphabet :=
  inAlphabet_normalizeFrom (inAlphabet_forward hclosed hstart)

/-- It has at most one way on every code. -/
theorem deterministic_minimal : (g.minimal start).Deterministic :=
  (deterministic_forward hclosed hstart).normalizeFrom

/-- It accepts the words of the graph. -/
theorem accepts_minimal_iff (hw : IsWord w) :
    (g.minimal start).Accepts 0 w ↔ g.Accepts start w := by
  rw [accepts_minimal_iff_forward hw, accepts_forward_iff hclosed hstart hw]

/-- Words reach every state of the result. -/
theorem exists_path_minimal (hi : i < (g.minimal start).size) :
    ∃ w, IsWord w ∧ (g.minimal start).Path 0 w i := by
  rw [minimal_eq, size_normalizeFrom] at hi
  obtain ⟨w, hpath⟩ := exists_path_reverseSubsets (symbolic_backward hclosed hstart) hi
  have hw := (inAlphabet_forward hclosed hstart).isWord_of_path hpath
  exact ⟨w, hw, (path_normalizeFrom_iff hw).mpr hpath⟩

/-- The result accepts the words of the given automaton, it is deterministic, and words
reach all of its states. -/
theorem minimal_accepts_and_deterministic :
    (∀ w, IsWord w → ((g.minimal start).Accepts 0 w ↔ g.Accepts start w)) ∧
      (g.minimal start).Deterministic ∧
      ∀ i < (g.minimal start).size, ∃ w, IsWord w ∧ (g.minimal start).Path 0 w i := by
  refine ⟨?_, ?_, ?_⟩
  · intro w hw
    exact accepts_minimal_iff hclosed hstart hw
  · exact deterministic_minimal hclosed hstart
  · intro i hi
    exact exists_path_minimal hclosed hstart hi

end Stages

theorem letters_bounds : (97 : Int) < 123 := by
  decide

theorem digits_bounds : (48 : Int) < 58 := by
  decide

/-- An automaton with overlapping labels, a silent edge and a cycle. -/
def overlapping : Graph :=
  ⟨#[⟨false, [⟨CodeSet.range 97 123 letters_bounds, 1⟩, ⟨CodeSet.single 97, 0⟩,
      ⟨CodeSet.silent, 2⟩]⟩,
    ⟨true, [⟨CodeSet.range 48 58 digits_bounds, 1⟩]⟩,
    ⟨false, [⟨CodeSet.range 100 110 (by decide), 0⟩]⟩]⟩

/-- Labels that overlap, a silent edge and two final states, with what the minimal automaton of them
is. -/
theorem minimal_overlapping :
    overlapping.Closed ∧ 0 < overlapping.size ∧
      (∀ w, IsWord w → ((overlapping.minimal 0).Accepts 0 w ↔ overlapping.Accepts 0 w)) ∧
      (overlapping.minimal 0).Deterministic ∧
      ∀ i < (overlapping.minimal 0).size, ∃ w, IsWord w ∧ (overlapping.minimal 0).Path 0 w i :=
  ⟨by decide, by decide, minimal_accepts_and_deterministic (by decide) (by decide)⟩

end Graph
end Munch

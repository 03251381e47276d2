import Munch.Proofs.Graph.Subset

/-!
# States as sets of states

Subset construction expands each state once, so it ends after as many expansions as its
result has states.  Every state of the result stands for a set of states of the given
automaton: what the words that lead to it reach there.  Different states stand for
different sets, and every set is closed under steps without input.

Main results:

- Theorem {lit}`Graph.Subsets.pending_run_eq_nil_iff`: how many expansions it takes until
  nothing is pending.
- Theorem {lit}`Graph.standFor_members`: what the states of the result stand for.
- Theorem {lit}`Graph.subsets_determinizes`: the construction ends with a deterministic
  automaton of the same language whose states are sets.
-/

namespace Munch
namespace Graph

/-! ## The number of expansions -/

namespace Subsets

variable {nfa : Graph} {t : Subsets} {start steps : Nat}

/-- With nothing pending, a run changes nothing. -/
theorem run_of_pending_eq_nil (hpending : t.pending = []) (steps : Nat) : t.run nfa steps = t := by
  cases steps with
  | zero => rfl
  | succ steps => simp only [Subsets.run, hpending]

/-- A run that leaves nothing pending makes one expansion for each state that is pending at
its start or found on the way, and leaves something pending before the last of them. -/
theorem exists_run_eq (hend : (t.run nfa steps).pending = []) :
    ∃ n, n + t.keys.size = t.pending.length + (t.run nfa steps).keys.size ∧
      t.run nfa n = t.run nfa steps ∧ ∀ m < n, (t.run nfa m).pending ≠ [] := by
  induction steps generalizing t with
  | zero =>
    have hpending : t.pending = [] := hend
    refine ⟨0, ?_, rfl, fun m hm => absurd hm (Nat.not_lt_zero m)⟩
    rw [hpending]
    rfl
  | succ steps ih =>
    cases hpending : t.pending with
    | nil =>
      rw [run_of_pending_eq_nil hpending]
      exact ⟨0, by simp, rfl, fun m hm => absurd hm (Nat.not_lt_zero m)⟩
    | cons i rest =>
      have hrun : ∀ n, t.run nfa (n + 1) =
          (({ t with pending := rest } : Subsets).expand nfa i).run nfa n := by
        intro n
        rw [Subsets.run, hpending]
      rw [hrun] at hend ⊢
      obtain ⟨n, hcount, hsame, hbefore⟩ := ih hend
      have hlength := length_pending_expand nfa hpending
      rw [hpending, List.length_cons] at hlength
      refine ⟨n + 1, ?_, (hrun n).trans hsame, fun m hm => ?_⟩
      · rw [List.length_cons]
        omega
      · cases m with
        | zero =>
          rw [Subsets.run, hpending]
          exact List.cons_ne_nil i rest
        | succ m =>
          rw [hrun]
          exact hbefore m (Nat.lt_of_succ_lt_succ hm)

/-- A run goes on where a shorter one stopped. -/
theorem run_add (t : Subsets) (m n : Nat) : t.run nfa (m + n) = (t.run nfa m).run nfa n := by
  induction m generalizing t with
  | zero => rw [Nat.zero_add, Subsets.run]
  | succ m ih =>
    cases hpending : t.pending with
    | nil => rw [run_of_pending_eq_nil hpending, run_of_pending_eq_nil hpending,
        run_of_pending_eq_nil hpending]
    | cons i rest =>
      rw [Nat.add_right_comm, Subsets.run, Subsets.run, hpending]
      exact ih _

/-- As many expansions as the result has states come to the end, and fewer do not. -/
theorem run_begun_size (nfa : Graph) (start : Nat) :
    (begun nfa start).run nfa (nfa.subsets start).size = finished nfa start ∧
      ∀ m < (nfa.subsets start).size, ((begun nfa start).run nfa m).pending ≠ [] := by
  obtain ⟨hprogress, hpending⟩ := progress_finished nfa start
  obtain ⟨n, hcount, hsame, hbefore⟩ := exists_run_eq hpending
  have hkeys : n + (begun nfa start).keys.size =
      (begun nfa start).pending.length + (finished nfa start).keys.size := hcount
  have hbegun : (begun nfa start).keys.size = 1 ∧ (begun nfa start).pending.length = 1 := by
    rw [begun_eq]
    exact ⟨rfl, rfl⟩
  have hn : n = (nfa.subsets start).size := by
    rw [subsets_eq, hprogress.numbered.size_eq]
    omega
  exact hn ▸ ⟨hsame, hbefore⟩

/-- More expansions than that change nothing. -/
theorem run_begun_of_le (hsteps : (nfa.subsets start).size ≤ steps) :
    (begun nfa start).run nfa steps = finished nfa start := by
  obtain ⟨more, rfl⟩ := Nat.exists_eq_add_of_le hsteps
  rw [run_add, (run_begun_size nfa start).1]
  exact run_of_pending_eq_nil (progress_finished nfa start).2 more

/-- It takes as many expansions as the result has states until nothing is pending. -/
theorem pending_run_begun_iff :
    ((begun nfa start).run nfa steps).pending = [] ↔ (nfa.subsets start).size ≤ steps := by
  constructor
  · intro hend
    by_contra hlt
    exact (run_begun_size nfa start).2 steps (Nat.not_le.mp hlt) hend
  · intro hle
    rw [run_begun_of_le hle]
    exact (progress_finished nfa start).2

end Subsets

/-! ## What a state stands for -/

variable {nfa : Graph} {start i j p q : Nat} {w : List Int}

/-- The states of an automaton stand for different sets of states of another one, which are
closed under steps without input.  The set of a state is what the words that lead to it
reach from a start, and the state is final when its set holds a final state. -/
structure StandFor (nfa : Graph) (start : Nat) (dfa : Graph) (sets : Nat → Set Nat) : Prop where
  subset : ∀ i < dfa.size, ∀ q ∈ sets i, q < nfa.size
  injOn : Set.InjOn sets {i | i < dfa.size}
  closed : ∀ i < dfa.size, ∀ p ∈ sets i, ∀ q, nfa.Path p [] q → q ∈ sets i
  isFinal_iff : ∀ i < dfa.size, dfa.isFinal i = true ↔ ∃ q ∈ sets i, nfa.isFinal q = true
  mem_iff : ∀ i w, dfa.Path 0 w i → ∀ q, q ∈ sets i ↔ nfa.Path start w q

section Result

variable (hsym : nfa.Symbolic) (hclosed : nfa.Closed) (hstart : start < nfa.size)
include hsym hclosed hstart

/-- A word leads to the state that stands for what it reaches. -/
theorem mem_members_iff_path (hpath : (nfa.subsets start).Path 0 w i) :
    q ∈ nfa.members start i ↔ nfa.Path start w q := by
  rw [mem_members_iff_of_path hsym hclosed hstart size_subsets_pos hpath]
  constructor
  · rintro ⟨p, hp, hword⟩
    exact ((mem_members_zero_iff hclosed hstart).mp hp).append hword
  · intro hword
    exact ⟨start, (mem_members_zero_iff hclosed hstart).mpr (Path.nil start), hword⟩

/-- What the states of the result stand for. -/
theorem standFor_members :
    StandFor nfa start (nfa.subsets start) fun i => {q | q ∈ nfa.members start i} where
  subset _ _ _ hq := lt_size_of_mem_members hq
  injOn _ hi _ hj heq := eq_of_members_iff hi hj fun q => Set.ext_iff.mp heq q
  closed _ hi _ hp _ hpath := mem_members_of_path_nil hsym hclosed hstart hi hp hpath
  isFinal_iff _ hi := isFinal_subsets_iff hi
  mem_iff _ _ hpath _ := mem_members_iff_path hsym hclosed hstart hpath

/-- Subset construction comes to its end after one expansion for each state of its result,
of which there are no more than sets of states.  The result is deterministic, accepts the
same words, has no state that words do not reach, and its states stand for sets. -/
theorem subsets_determinizes :
    ((nfa.subsets start).size ≤ 2 ^ nfa.size ∧
      (∀ steps, ((Subsets.begun nfa start).run nfa steps).pending = [] ↔
        (nfa.subsets start).size ≤ steps) ∧
      ∀ steps, (nfa.subsets start).size ≤ steps →
        ((Subsets.begun nfa start).run nfa steps).graph = nfa.subsets start) ∧
    (∀ w, (nfa.subsets start).Accepts 0 w ↔ nfa.Accepts start w) ∧
    (nfa.subsets start).Deterministic ∧
    (∀ i < (nfa.subsets start).size, ∃ w, (nfa.subsets start).Path 0 w i) ∧
    ∃ sets, StandFor nfa start (nfa.subsets start) sets := by
  refine ⟨⟨?_, ?_, ?_⟩, ?_, ?_, ?_, ?_⟩
  · rw [size_subsets]
    exact Subsets.size_keys_le (Subsets.progress_finished nfa start).1.numbered
  · intro steps
    exact Subsets.pending_run_begun_iff
  · intro steps hsteps
    rw [Subsets.run_begun_of_le hsteps, subsets_eq]
  · intro w
    exact accepts_subsets_iff hsym hclosed hstart
  · exact deterministic_subsets hsym
  · intro i hi
    exact exists_path_subsets hsym hi
  · exact ⟨_, standFor_members hsym hclosed hstart⟩

end Result

/-- An automaton with a cycle of silent edges and two edges on one letter. -/
def roundabout : Graph :=
  ⟨#[⟨false, [⟨CodeSet.silent, 1⟩, ⟨CodeSet.single 97, 0⟩, ⟨CodeSet.single 97, 2⟩]⟩,
    ⟨false, [⟨CodeSet.silent, 0⟩, ⟨CodeSet.single 98, 1⟩]⟩,
    ⟨true, [⟨CodeSet.silent, 2⟩]⟩]⟩

theorem label_roundabout {e : Edge} (he : e ∈ roundabout.edges i) :
    e.label = CodeSet.silent ∨ e.label = CodeSet.single 97 ∨ e.label = CodeSet.single 98 := by
  have hall : ∀ i < roundabout.size, ∀ e ∈ roundabout.edges i, e.label = CodeSet.silent ∨
      e.label = CodeSet.single 97 ∨ e.label = CodeSet.single 98 := by decide
  exact hall i (lt_size_of_mem_edges he) e he

theorem symbolic_roundabout : roundabout.Symbolic where
  nonempty _ _ he := by
    rcases label_roundabout he with h | h | h <;> rw [h] <;> exact ⟨_, CodeSet.mem_single.mpr rfl⟩
  separate _ _ _ he _ hf c hce hcf := by
    rcases label_roundabout he with h | h | h <;> rcases label_roundabout hf with h' | h' | h' <;>
      simp_all [Code.silent]
  silent_eq _ _ he hsilent := by
    rcases label_roundabout he with h | h | h
    · exact h
    · simp [h, Code.silent] at hsilent
    · simp [h, Code.silent] at hsilent

theorem subsets_determinizes_roundabout :
    roundabout.Symbolic ∧ roundabout.Closed ∧ 0 < roundabout.size ∧
      (∀ steps, ((Subsets.begun roundabout 0).run roundabout steps).pending = [] ↔
        (roundabout.subsets 0).size ≤ steps) ∧
      (∀ w, (roundabout.subsets 0).Accepts 0 w ↔ roundabout.Accepts 0 w) ∧
      (roundabout.subsets 0).Deterministic ∧
      ∃ sets, StandFor roundabout 0 (roundabout.subsets 0) sets := by
  have hclosed : roundabout.Closed := by decide
  have hpos : 0 < roundabout.size := by decide
  obtain ⟨⟨-, hsteps, -⟩, haccepts, hdet, -, hsets⟩ :=
    subsets_determinizes symbolic_roundabout hclosed hpos
  exact ⟨symbolic_roundabout, hclosed, hpos, hsteps, haccepts, hdet, hsets⟩

end Graph
end Munch

import Munch.Fragment
import Munch.Proofs.Graph.Words

/-!
# Operands of a construction

The operands of an expression are parts of one graph, each with its own entry and exit.
No edge leads out of a part, and none out of its exit, so what leads through an operand
is not changed by edges that are put elsewhere.  Gluing puts edges on the entries and exits
themselves: nothing is copied, and an operand that was gone through once may be entered
again at its entry.

Main results:

- Theorem {lit}`Graph.Operand.through_chain`: one operand after the other.
- Theorem {lit}`Graph.Operand.through_branch`: either of two operands.
- Theorem {lit}`Graph.Operand.through_iterate_optional` and
  {lit}`Graph.Operand.through_iterate_zeroOrMore`: an operand passed over also lets through what
  leads back to its entry.
- Theorems {lit}`Graph.Operands.through_chainAll` and
  {lit}`Graph.Operands.through_branchAll`: any number of operands in a row, or any of them.
- Theorem {lit}`Graph.glue_operands`: the languages of all constructions over operands that
  are apart, and the edges they leave alone.
-/

open scoped Computability

namespace Munch
namespace Graph

/-- The words that lead through a part of a graph. -/
def through (r : Graph × Ends) : Language Int := r.1.words r.2.entry r.2.exit

/-- A closed part of a graph with its ends, and no edges at its exit. -/
structure Operand (g : Graph) (a : Ends) (part : Set Nat) : Prop where
  isPart : g.IsPart part
  lt_size : ∀ i ∈ part, i < g.size
  entry_mem : a.entry ∈ part
  exit_mem : a.exit ∈ part
  edges_exit : g.edges a.exit = []

/-- The edges inside a part are the same in two graphs: a state of the part keeps its edges
in order, and the new ones behind them lead out of the part. -/
def KeepsInside (g h : Graph) (part : Set Nat) : Prop :=
  ∀ i ∈ part, ∃ new, h.edges i = g.edges i ++ new ∧ ∀ e ∈ new, e.target ∉ part

namespace KeepsInside

variable {g h k : Graph} {part whole : Set Nat} {s t : Nat} {label : CodeSet}

/-- A part whose edges are left as they are is kept. -/
theorem of_edges_eq (hedges : ∀ i ∈ part, h.edges i = g.edges i) : KeepsInside g h part := by
  intro i hi
  refine ⟨[], ?_, fun e he => absurd he List.not_mem_nil⟩
  rw [hedges i hi, List.append_nil]

/-- What is kept twice is kept. -/
theorem trans (hfirst : KeepsInside g h part) (hsecond : KeepsInside h k part) :
    KeepsInside g k part := by
  intro i hi
  obtain ⟨new, hnew, hout⟩ := hfirst i hi
  obtain ⟨new', hnew', hout'⟩ := hsecond i hi
  refine ⟨new ++ new', ?_, List.forall_mem_append.mpr ⟨hout, hout'⟩⟩
  rw [hnew', hnew, List.append_assoc]

/-- With a part all of its parts are kept. -/
theorem mono (hkeeps : KeepsInside g h whole) (hle : part ⊆ whole) : KeepsInside g h part := by
  intro i hi
  obtain ⟨new, hnew, hout⟩ := hkeeps i (hle hi)
  exact ⟨new, hnew, fun e he hmem => hout e he (hle hmem)⟩

/-- An edge is no edge inside a part unless it leads from the part into it. -/
theorem addEdge (hkeeps : KeepsInside g h part) (hout : s ∈ part → t ∉ part) :
    KeepsInside g (h.addEdge s label t) part := by
  refine hkeeps.trans fun i hi => ?_
  rw [edges_addEdge]
  split
  · rename_i hsource
    refine ⟨[⟨label, t⟩], rfl, fun e he => ?_⟩
    rw [List.mem_singleton.mp he]
    exact hout (hsource.1 ▸ hi)
  · exact ⟨[], (List.append_nil _).symm, fun e he => absurd he List.not_mem_nil⟩

/-- A new state keeps every part. -/
theorem addState (hkeeps : KeepsInside g h part) (b : Bool) :
    KeepsInside g (h.addState b) part :=
  hkeeps.trans (of_edges_eq fun i _ => edges_addState h b i)

end KeepsInside

/-! ## What gluing does to edges -/

section Edges

variable {g : Graph} {a b : Ends} {part : Set Nat} {i : Nat}

/-- Two new states leave the edges of all others. -/
theorem edges_wider (g : Graph) (i : Nat) :
    ((g.addState false).addState false).edges i = g.edges i := by
  rw [edges_addState, edges_addState]

/-- The new states have no edges. -/
theorem edges_wider_of_size_le (hi : g.size ≤ i) :
    ((g.addState false).addState false).edges i = [] :=
  (edges_wider g i).trans (edges_eq_nil_of_size_le hi)

/-- A step from the entry to the exit changes the entry only. -/
theorem edges_addStep (hi : i ≠ g.size) (label : CodeSet) :
    (g.addStep label).1.edges i = g.edges i := by
  rw [Graph.addStep, edges_addEdge, if_neg fun hand => hi hand.1.symm, edges_wider]

/-- Two operands in sequence change the exit of the first one only. -/
theorem edges_chain (hi : i ≠ a.exit) : (g.chain a b).1.edges i = g.edges i := by
  rw [Graph.chain, addSilent, edges_addEdge, if_neg fun hand => hi hand.1.symm]

/-- Repeating an operand changes its entry and its exit only. -/
theorem edges_iterate (hentry : i ≠ a.entry) (hexit : i ≠ a.exit) (how : Repetition) :
    (g.iterate a how).1.edges i = g.edges i := by
  have hbypass : (g.bypass a how).edges i = g.edges i := by
    have hne : ∀ m, ¬(a.entry = i ∧ i < m) := fun _ hand => hentry hand.1.symm
    have hne' : ∀ m, ¬(a.exit = i ∧ i < m) := fun _ hand => hexit hand.1.symm
    cases how with
    | zeroOrMore =>
      rw [bypass, addSilent, edges_addEdge, if_neg (hne' _), addSilent, edges_addEdge,
        if_neg (hne _)]
    | oneOrMore => rw [bypass, addSilent, edges_addEdge, if_neg (hne' _)]
    | optional => rw [bypass, addSilent, edges_addEdge, if_neg (hne _)]
  rw [iterate, freeExit]
  split
  · exact hbypass
  · rw [addSilent, edges_addEdge, if_neg fun hand => hexit hand.1.symm, edges_addState, hbypass]

section NewExit

variable (hexit : a.exit < g.size)
include hexit

/-- The exit is still there when a state was added. -/
theorem exit_lt_addState : a.exit < (g.addState false).size := by
  rw [size_addState]
  exact Nat.lt_succ_of_lt hexit

/-- A new state behind an exit is reached by what reaches the exit. -/
theorem words_newExit (hnew : g.words i g.size = 0) :
    ((g.addState false).addSilent a.exit g.size).words i g.size = g.words i a.exit := by
  have hedges : (g.addState false).edges g.size = [] :=
    (edges_addState g false g.size).trans (edges_eq_nil_of_size_le (Nat.le_refl _))
  rw [words_addSilent (exit_lt_addState hexit), words_addState, words_addState, hnew,
    words_of_edges_eq_nil hedges, words_of_edges_eq_nil hedges, if_neg (Nat.ne_of_lt hexit),
    if_pos rfl, kstar_zero, mul_one, mul_one, zero_add]

/-- The other states are reached as before. -/
theorem words_newExit_of_lt {j : Nat} (hj : j < g.size) :
    ((g.addState false).addSilent a.exit g.size).words i j = g.words i j := by
  have hnone : (g.addState false).words g.size j = 0 := by
    rw [words_addState, words_of_edges_eq_nil (edges_eq_nil_of_size_le (Nat.le_refl _)),
      if_neg (Nat.ne_of_lt hj)]
  rw [words_addSilent_of_sink (exit_lt_addState hexit) hnone, words_addState]

/-- A free exit lets through what the exit before lets through. -/
theorem through_freeExit (hnew : g.words a.entry g.size = 0) :
    through (g.freeExit a) = through (g, a) := by
  rw [through, through, freeExit]
  split
  · rfl
  · exact words_newExit hexit hnew

end NewExit

/-- Two new states behind a graph have no edges yet. -/
theorem isPart_new (g : Graph) : g.IsPart {g.size, g.size + 1} := by
  rintro i (rfl | rfl) e he
  · rw [edges_eq_nil_of_size_le (Nat.le_refl _)] at he
    cases he
  · rw [edges_eq_nil_of_size_le (Nat.le_succ _)] at he
    cases he

/-- Two new states behind a graph, with silent edges from the first to two entries. -/
def fork (g : Graph) (a b : Ends) : Graph :=
  (((g.addState false).addState false).addSilent g.size a.entry).addSilent g.size b.entry

/-- Alternatives are a fork and two edges to the new exit. -/
theorem branch_eq (g : Graph) (a b : Ends) : g.branch a b =
    (((fork g a b).addSilent a.exit (g.size + 1)).addSilent b.exit (g.size + 1),
      ⟨g.size, g.size + 1⟩) :=
  rfl

theorem lt_size_wider (g : Graph) : g.size < ((g.addState false).addState false).size := by
  rw [size_addState, size_addState]
  omega

/-- A fork adds two states. -/
@[simp]
theorem size_fork : (fork g a b).size = g.size + 2 := by
  simp [fork]

/-- A fork changes the new entry only. -/
theorem edges_fork_of_ne (hi : i ≠ g.size) : (fork g a b).edges i = g.edges i := by
  have hne : ∀ m, ¬(g.size = i ∧ i < m) := fun _ hand => hi hand.1.symm
  rw [fork, addSilent, edges_addEdge, if_neg (hne _), addSilent, edges_addEdge, if_neg (hne _),
    edges_wider]

/-- Nothing leaves the new exit. -/
theorem edges_fork_exit : (fork g a b).edges (g.size + 1) = [] := by
  rw [edges_fork_of_ne (Nat.succ_ne_self _)]
  exact edges_eq_nil_of_size_le (Nat.le_succ _)

/-- Alternatives leave all states but the exits of the operands. -/
theorem edges_branch (hi : i < g.size) (hia : i ≠ a.exit) (hib : i ≠ b.exit) :
    (g.branch a b).1.edges i = g.edges i := by
  rw [branch_eq, addSilent, edges_addEdge, if_neg fun hand => hib hand.1.symm, addSilent,
    edges_addEdge, if_neg fun hand => hia hand.1.symm, edges_fork_of_ne (Nat.ne_of_lt hi)]

/-- The new edges lead from a new state or to a new state. -/
theorem keepsInside_branch (hpart : ∀ i ∈ part, i < g.size) :
    KeepsInside g (g.branch a b).1 part := by
  have hentry : g.size ∉ part := fun hmem => Nat.lt_irrefl _ (hpart _ hmem)
  have hexit : g.size + 1 ∉ part := fun hmem => Nat.not_succ_lt_self (hpart _ hmem)
  have hsame : KeepsInside g g part := KeepsInside.of_edges_eq fun _ _ => rfl
  exact ((((hsame.addState false).addState false).addEdge fun hmem => absurd hmem hentry).addEdge
    fun hmem => absurd hmem hentry).addEdge (fun _ => hexit) |>.addEdge fun _ => hexit

end Edges

namespace Operand

variable {g h : Graph} {a b : Ends} {part other : Set Nat} {i j : Nat}

/-- An operand stays one when the graph changes elsewhere. -/
theorem congr (ha : g.Operand a part) (hsize : g.size ≤ h.size)
    (hedges : ∀ i ∈ part, h.edges i = g.edges i) : h.Operand a part where
  isPart i hi e he := ha.isPart i hi e (hedges i hi ▸ he)
  lt_size i hi := Nat.lt_of_lt_of_le (ha.lt_size i hi) hsize
  entry_mem := ha.entry_mem
  exit_mem := ha.exit_mem
  edges_exit := by rw [hedges _ ha.exit_mem, ha.edges_exit]

/-- What leads from its entry stays the same then. -/
theorem words_eq (ha : g.Operand a part) (hedges : ∀ i ∈ part, h.edges i = g.edges i) (j : Nat) :
    h.words a.entry j = g.words a.entry j :=
  words_congr ha.isPart hedges ha.entry_mem

/-- The entry of an operand is a state of the graph. -/
theorem entry_lt (ha : g.Operand a part) : a.entry < g.size :=
  ha.lt_size _ ha.entry_mem

/-- So is its exit. -/
theorem exit_lt (ha : g.Operand a part) : a.exit < g.size :=
  ha.lt_size _ ha.exit_mem

/-- Nothing leads from its entry out of the part. -/
theorem words_eq_zero (ha : g.Operand a part) (hj : j ∉ part) : g.words a.entry j = 0 :=
  Graph.words_eq_zero ha.isPart ha.entry_mem hj

/-- No words lead from an operand out of the graph. -/
theorem words_eq_zero_of_size_le (ha : g.Operand a part) (hj : g.size ≤ j) :
    g.words a.entry j = 0 :=
  ha.words_eq_zero fun hmem => absurd (ha.lt_size j hmem) (Nat.not_lt.mpr hj)

/-- Nothing leads back to an entry without incoming edges. -/
theorem words_entry_eq_one (ha : g.Operand a part)
    (hsource : ∀ i ∈ part, ∀ e ∈ g.edges i, e.target ≠ a.entry) :
    g.words a.entry a.entry = 1 := by
  refine le_antisymm (fun w hpath => ?_) (one_le_words g a.entry)
  exact (Language.mem_one w).mpr (ha.isPart.eq_nil_of_path hsource ha.entry_mem hpath).2

/-- The exit of an operand is not in a part beside it. -/
theorem exit_not_mem (hb : g.Operand b other) (hapart : Disjoint part other) : b.exit ∉ part :=
  fun hmem => Set.disjoint_left.mp hapart hmem hb.exit_mem

/-- Neither is its entry. -/
theorem entry_not_mem (hb : g.Operand b other) (hapart : Disjoint part other) : b.entry ∉ part :=
  fun hmem => Set.disjoint_left.mp hapart hmem hb.entry_mem

/-! ## One operand after the other -/

section Chain

variable (ha : g.Operand a part) (hb : g.Operand b other) (hapart : Disjoint part other)
include ha hb hapart

/-- The operands in a row are one operand. -/
theorem chain : (g.chain a b).1.Operand (g.chain a b).2 (part ∪ other) where
  isPart := (ha.isPart.union hb.isPart).addEdge fun _ => Or.inr hb.entry_mem
  lt_size i hi := by
    rw [size_chain]
    exact hi.elim (ha.lt_size i) (hb.lt_size i)
  entry_mem := Or.inl ha.entry_mem
  exit_mem := Or.inr hb.exit_mem
  edges_exit := by
    have hne : b.exit ≠ a.exit := fun heq => hb.exit_not_mem hapart (heq ▸ ha.exit_mem)
    exact (edges_chain hne).trans hb.edges_exit

/-- One operand after the other lets through words of the first followed by words of the
second. -/
theorem through_chain : through (g.chain a b) = through (g, a) * through (g, b) := by
  have hacross : g.words a.entry b.exit = 0 := ha.words_eq_zero (hb.exit_not_mem hapart)
  have hback : g.words b.entry a.exit = 0 := hb.words_eq_zero (ha.exit_not_mem hapart.symm)
  rw [through, Graph.chain, words_addSilent ha.exit_lt, hacross, hback, kstar_zero, mul_one,
    zero_add]
  rfl

/-- What leads back to the first entry stays the same. -/
theorem words_entry_chain : (g.chain a b).1.words a.entry a.entry = g.words a.entry a.entry := by
  have hback : g.words b.entry a.entry = 0 := hb.words_eq_zero (ha.entry_not_mem hapart.symm)
  exact words_addSilent_of_sink ha.exit_lt hback

end Chain

/-! ## A single code -/

/-- Two new states joined by an edge are an operand. -/
theorem addStep (g : Graph) (label : CodeSet) :
    (g.addStep label).1.Operand (g.addStep label).2 {g.size, g.size + 1} where
  isPart := (((isPart_new g).addState false).addState false).addEdge fun _ => Or.inr rfl
  lt_size i hi := by
    rw [size_addStep]
    rcases hi with rfl | rfl
    · exact Nat.lt_add_of_pos_right Nat.two_pos
    · exact Nat.lt_succ_self _
  entry_mem := Or.inl rfl
  exit_mem := Or.inr rfl
  edges_exit := (edges_addStep (Nat.succ_ne_self _) label).trans
    (edges_eq_nil_of_size_le (Nat.le_succ _))

/-- Nothing leads from a new state to another one. -/
theorem words_wider (hi : g.size ≤ i) :
    ((g.addState false).addState false).words i j = if j = i then 1 else 0 :=
  words_of_edges_eq_nil (edges_wider_of_size_le hi)

/-- Between the two states one code of the label is read. -/
theorem through_addStep (g : Graph) (label : CodeSet) :
    through (g.addStep label) = steps label := by
  have hback : ((g.addState false).addState false).words (g.size + 1) g.size = 0 := by
    rw [words_wider (Nat.le_succ _), if_neg (by omega)]
  have hfar : ((g.addState false).addState false).words g.size (g.size + 1) = 0 := by
    rw [words_wider (Nat.le_refl _), if_neg (by omega)]
  rw [through, Graph.addStep, words_addEdge (lt_size_wider g), hback, hfar,
    words_wider (Nat.le_refl _), if_pos rfl, words_wider (Nat.le_succ _), if_pos rfl, mul_zero,
    kstar_zero, mul_one, mul_one, one_mul, zero_add]

/-- Only the empty word leads from the first state back to it. -/
theorem words_entry_addStep (g : Graph) (label : CodeSet) :
    (g.addStep label).1.words g.size g.size = 1 := by
  have hback : ((g.addState false).addState false).words (g.size + 1) g.size = 0 := by
    rw [words_wider (Nat.le_succ _), if_neg (by omega)]
  rw [Graph.addStep, words_addEdge (lt_size_wider g), hback, words_wider (Nat.le_refl _),
    if_pos rfl, mul_zero, mul_zero, add_zero]

/-! ## Either of two operands -/

section Branch

variable (ha : g.Operand a part) (hb : g.Operand b other)
include ha hb

/-- Nothing leads from the operands to the new entry. -/
theorem entry_wider :
    ((g.addState false).addState false).words a.entry g.size = 0 ∧
      ((g.addState false).addState false).words b.entry g.size = 0 := by
  rw [words_addState, words_addState, words_addState, words_addState]
  exact ⟨ha.words_eq_zero_of_size_le (Nat.le_refl _), hb.words_eq_zero_of_size_le (Nat.le_refl _)⟩

/-- The first new state leads to what the entries lead to. -/
theorem words_fork_entry (hj : j ≠ g.size) :
    (fork g a b).words g.size j = g.words a.entry j + g.words b.entry j := by
  obtain ⟨hentry, hentry'⟩ := entry_wider ha hb
  have hedges := edges_wider_of_size_le (Nat.le_refl g.size)
  rw [fork, words_fork (lt_size_wider g) hedges hentry hentry' hj]
  simp only [words_addState]

/-- Only the empty word leads back to it. -/
theorem words_fork_self : (fork g a b).words g.size g.size = 1 := by
  obtain ⟨hentry, hentry'⟩ := entry_wider ha hb
  have hedges := edges_wider_of_size_le (Nat.le_refl g.size)
  exact Graph.words_fork_self (lt_size_wider g) hedges hentry hentry'

/-- The exits are still there in a fork. -/
theorem exit_lt_fork : a.exit < (fork g a b).size ∧ b.exit < (fork g a b).size := by
  have hlt := ha.exit_lt
  have hlt' := hb.exit_lt
  rw [size_fork]
  omega

/-- Only the empty word leads from the new entry back to it. -/
theorem words_entry_branch : (g.branch a b).1.words g.size g.size = 1 := by
  obtain ⟨hs, hs'⟩ := exit_lt_fork ha hb
  have hne : g.size ≠ g.size + 1 := Nat.ne_of_lt (Nat.lt_succ_self _)
  rw [branch_eq]
  exact (words_join_of_sink hs hs' edges_fork_exit hne).trans (words_fork_self ha hb)

/-- Either operand, with the two new states, is one operand. -/
theorem branch : (g.branch a b).1.Operand (g.branch a b).2
    (part ∪ other ∪ {g.size, g.size + 1}) where
  isPart := by
    have hwider := (((ha.isPart.union hb.isPart).union (isPart_new g)).addState false).addState
      false
    have hexit : g.size + 1 ∈ part ∪ other ∪ {g.size, g.size + 1} := Or.inr (Or.inr rfl)
    exact (((hwider.addEdge fun _ => Or.inl (Or.inl ha.entry_mem)).addEdge
      fun _ => Or.inl (Or.inr hb.entry_mem)).addEdge fun _ => hexit).addEdge fun _ => hexit
  lt_size i hi := by
    rw [size_branch]
    rcases hi with (hi | hi) | rfl | rfl
    · exact Nat.lt_add_right 2 (ha.lt_size i hi)
    · exact Nat.lt_add_right 2 (hb.lt_size i hi)
    · exact Nat.lt_add_of_pos_right Nat.two_pos
    · exact Nat.lt_succ_self _
  entry_mem := Or.inr (Or.inl rfl)
  exit_mem := Or.inr (Or.inr rfl)
  edges_exit := by
    have hlt := ha.exit_lt
    have hlt' := hb.exit_lt
    have hne : ∀ m, ¬(a.exit = g.size + 1 ∧ g.size + 1 < m) := by omega
    have hne' : ∀ m, ¬(b.exit = g.size + 1 ∧ g.size + 1 < m) := by omega
    rw [branch_eq, addSilent, edges_addEdge, if_neg (hne' _), addSilent, edges_addEdge,
      if_neg (hne _), edges_fork_exit]

variable (hapart : Disjoint part other)
include hapart

/-- Between two new states, either operand lets through the words of both. -/
theorem through_branch : through (g.branch a b) = through (g, a) + through (g, b) := by
  obtain ⟨hs, hs'⟩ := exit_lt_fork ha hb
  have hlt := ha.exit_lt
  have hlt' := hb.exit_lt
  -- Of the six ways from an entry to an exit or to the new exit, two are there.
  rw [through, branch_eq, words_join hs hs' edges_fork_exit (by omega) (by omega),
    words_fork_entry ha hb (by omega), words_fork_entry ha hb (by omega),
    words_fork_entry ha hb (by omega), ha.words_eq_zero_of_size_le (Nat.le_succ _),
    hb.words_eq_zero_of_size_le (Nat.le_succ _), ha.words_eq_zero (hb.exit_not_mem hapart),
    hb.words_eq_zero (ha.exit_not_mem hapart.symm)]
  simp only [add_zero, zero_add]
  rfl

end Branch

/-! ## An operand several times -/

section Iterate

variable (ha : g.Operand a part)
include ha

/-- Edges between its ends lead to no new state. -/
theorem words_bypass_size (how : Repetition) : (g.bypass a how).words a.entry g.size = 0 := by
  have hpart : (g.bypass a how).IsPart part := by
    cases how with
    | zeroOrMore =>
      exact (ha.isPart.addEdge fun _ => ha.exit_mem).addEdge fun _ => ha.entry_mem
    | oneOrMore => exact ha.isPart.addEdge fun _ => ha.entry_mem
    | optional => exact ha.isPart.addEdge fun _ => ha.exit_mem
  refine Graph.words_eq_zero hpart ha.entry_mem fun hmem => ?_
  exact Nat.lt_irrefl _ (ha.lt_size _ hmem)

/-- Repeating passes what the edges that go past the operand let through. -/
theorem through_iterate (how : Repetition) :
    through (g.iterate a how) = through (g.bypass a how, a) := by
  refine through_freeExit ?_ ?_
  · rw [size_bypass]
    exact ha.exit_lt
  · rw [size_bypass]
    exact ha.words_bypass_size how

/-- Passing over an operand adds what leads back to its entry. -/
theorem through_bypass_optional :
    through (g.bypass a .optional, a) = through (g, a) + g.words a.entry a.entry := by
  have hstay : g.words a.exit a.exit = 1 := by
    rw [words_of_edges_eq_nil ha.edges_exit, if_pos rfl]
  have hback : (g.words a.exit a.entry)∗ = 1 := by
    rw [words_of_edges_eq_nil ha.edges_exit]
    split
    · exact kstar_one
    · exact kstar_zero
  rw [through, bypass, words_addSilent ha.entry_lt, hstay, hback, mul_one, mul_one]
  rfl

/-- Once or more is the operand followed by any number of times. -/
theorem through_iterate_oneOrMore :
    through (g.iterate a .oneOrMore) = through (g, a) * (through (g, a))∗ := by
  rw [through_iterate ha, bypass, through, words_addSilent_back ha.exit_lt]
  rfl

/-- Once or not at all passes the operand and what leads back to its entry. -/
theorem through_iterate_optional :
    through (g.iterate a .optional) = through (g, a) + g.words a.entry a.entry := by
  rw [through_iterate ha, through_bypass_optional ha]

/-- Repeating an operand repeats what leads through it and what leads back. -/
theorem through_iterate_zeroOrMore :
    through (g.iterate a .zeroOrMore) = (through (g, a) + g.words a.entry a.entry)∗ := by
  have hlt : a.exit < (g.bypass a .optional).size := by
    rw [size_bypass]
    exact ha.exit_lt
  have hagain : through (g.bypass a .zeroOrMore, a) =
      through (g.bypass a .optional, a) * (through (g.bypass a .optional, a))∗ :=
    words_addSilent_back hlt
  rw [through_iterate ha, hagain, through_bypass_optional ha]
  exact mul_kstar_of_one_le ((one_le_words g a.entry).trans le_add_self)

end Iterate

end Operand

/-! ## Several operands -/

/-- Parts one after the other, from the first on. -/
def chainAll (g : Graph) (a : Ends) : List Ends → Graph × Ends
  | [] => (g, a)
  | b :: rest => (g.chain a b).1.chainAll (g.chain a b).2 rest

/-- Any of the parts, from the last two on. -/
def branchAll (g : Graph) (a : Ends) : List Ends → Graph × Ends
  | [] => (g, a)
  | b :: rest => (g.branchAll b rest).1.branch a (g.branchAll b rest).2

/-- Operands that share no states. -/
structure Operands (g : Graph) (os : List (Ends × Set Nat)) : Prop where
  each : ∀ o ∈ os, g.Operand o.1 o.2
  apart : os.Pairwise fun o p => Disjoint o.2 p.2

namespace Operands

variable {g : Graph} {a b : Ends} {part other : Set Nat} {i : Nat}
  {o p : Ends × Set Nat} {rest : List (Ends × Set Nat)}

/-- The first one of several operands is an operand. -/
theorem head (hos : g.Operands (o :: rest)) : g.Operand o.1 o.2 :=
  hos.each o List.mem_cons_self

/-- The others are operands. -/
theorem tail (hos : g.Operands (o :: rest)) : g.Operands rest where
  each p hp := hos.each p (List.mem_cons_of_mem o hp)
  apart := hos.apart.tail

/-- The first one stands apart from the others. -/
theorem disjoint (hos : g.Operands (o :: rest)) (hp : p ∈ rest) : Disjoint o.2 p.2 :=
  List.rel_of_pairwise_cons hos.apart hp

theorem exit_ne (hos : g.Operands (o :: rest)) (hp : p ∈ rest) (hi : i ∈ p.2) : i ≠ o.1.exit :=
  fun heq => hos.head.exit_not_mem (hos.disjoint hp).symm (heq ▸ hi)

/-- Two operands stand apart. -/
theorem disjoint_of_ne {os : List (Ends × Set Nat)} (hos : g.Operands os) (ho : o ∈ os)
    (hp : p ∈ os) (hne : o ≠ p) : Disjoint o.2 p.2 := by
  have : Std.Symm fun o p : Ends × Set Nat => Disjoint o.2 p.2 := ⟨fun _ _ h => h.symm⟩
  exact hos.apart.forall ho hp hne

theorem operands_nil (g : Graph) : g.Operands [] where
  each _ ho := absurd ho List.not_mem_nil
  apart := List.Pairwise.nil

/-- A single code behind a graph is one more operand. -/
theorem addStep {os : List (Ends × Set Nat)} (hos : g.Operands os) (label : CodeSet) :
    (g.addStep label).1.Operands (((g.addStep label).2, {g.size, g.size + 1}) :: os) where
  each := by
    refine List.forall_mem_cons.mpr ⟨?_, fun o ho => ?_⟩
    · exact Operand.addStep g label
    · refine (hos.each o ho).congr ?_ fun i hi => ?_
      · rw [size_addStep]
        exact Nat.le_add_right _ 2
      · exact edges_addStep (Nat.ne_of_lt ((hos.each o ho).lt_size i hi)) label
  apart := by
    refine List.pairwise_cons.mpr ⟨fun o ho => Set.disjoint_left.mpr fun i hi hmem => ?_, hos.apart⟩
    have hlt := (hos.each o ho).lt_size i hmem
    rcases hi with rfl | rfl
    · exact Nat.lt_irrefl _ hlt
    · exact Nat.not_succ_lt_self hlt

/-! ## All of them in a row -/

section Chain

variable (hos : g.Operands (o :: p :: rest))
include hos

/-- The first two operands in a row are one operand beside the others. -/
theorem chain : (g.chain o.1 p.1).1.Operands (((g.chain o.1 p.1).2, o.2 ∪ p.2) :: rest) where
  each := by
    refine List.forall_mem_cons.mpr ⟨?_, fun q hq => ?_⟩
    · exact hos.head.chain hos.tail.head (hos.disjoint List.mem_cons_self)
    · refine (hos.tail.tail.each q hq).congr (size_chain g o.1 p.1).ge fun i hi => ?_
      exact edges_chain (hos.exit_ne (List.mem_cons_of_mem p hq) hi)
  apart := by
    refine List.pairwise_cons.mpr ⟨fun q hq => ?_, hos.tail.tail.apart⟩
    exact (hos.disjoint (List.mem_cons_of_mem p hq)).union_left (hos.tail.disjoint hq)

/-- Joining the first two leaves the languages of the others. -/
theorem through_chain_rest {q : Ends × Set Nat} (hq : q ∈ rest) :
    through ((g.chain o.1 p.1).1, q.1) = through (g, q.1) :=
  (hos.tail.tail.each q hq).words_eq
    (fun _ hi => edges_chain (hos.exit_ne (List.mem_cons_of_mem p hq) hi)) q.1.exit

/-- The edge between two operands leads from one of them to another. -/
theorem keepsInside_chain {q : Ends × Set Nat} (hq : q ∈ o :: p :: rest) :
    KeepsInside g (g.chain o.1 p.1).1 q.2 := by
  have hsame : KeepsInside g g q.2 := KeepsInside.of_edges_eq fun _ _ => rfl
  refine hsame.addEdge fun hexit => ?_
  rcases List.mem_cons.mp hq with rfl | hq
  · exact hos.tail.head.entry_not_mem (hos.disjoint List.mem_cons_self)
  · exact absurd rfl (hos.exit_ne hq hexit)

end Chain

/-- Operands in a row let through what they let through, one after the other. -/
theorem through_chainAll (hos : g.Operands (o :: rest)) :
    through (g.chainAll o.1 (rest.map Prod.fst)) =
      ((o :: rest).map fun q => through (g, q.1)).prod := by
  induction rest generalizing g o with
  | nil => exact (List.prod_singleton).symm
  | cons p rest ih =>
    have hfirst := hos.head.through_chain hos.tail.head (hos.disjoint List.mem_cons_self)
    have hrest := List.map_congr_left fun q hq => hos.through_chain_rest (q := q) hq
    calc through (g.chainAll o.1 ((p :: rest).map Prod.fst))
        = through (g.chain o.1 p.1) *
            (rest.map fun q => through ((g.chain o.1 p.1).1, q.1)).prod := ih hos.chain
      _ = through (g, o.1) * (through (g, p.1) * (rest.map fun q => through (g, q.1)).prod) := by
          rw [hfirst, hrest, mul_assoc]

/-- All operands in sequence are kept inside. -/
theorem keepsInside_chainAll (hos : g.Operands (o :: rest)) :
    ∀ q ∈ o :: rest, KeepsInside g (g.chainAll o.1 (rest.map Prod.fst)).1 q.2 := by
  induction rest generalizing g o with
  | nil => exact fun q _ => KeepsInside.of_edges_eq fun _ _ => rfl
  | cons p rest ih =>
    intro q hq
    refine (hos.keepsInside_chain hq).trans ?_
    have hlater := ih hos.chain
    rcases List.mem_cons.mp hq with rfl | hq
    · exact (hlater _ List.mem_cons_self).mono Set.subset_union_left
    · rcases List.mem_cons.mp hq with rfl | hq
      · exact (hlater _ List.mem_cons_self).mono Set.subset_union_right
      · exact hlater q (List.mem_cons_of_mem _ hq)

/-! ## Any of them -/

/-- Alternatives only add states. -/
theorem size_le_branchAll (g : Graph) (a : Ends) (rest : List Ends) :
    g.size ≤ (g.branchAll a rest).1.size := by
  induction rest generalizing a with
  | nil => exact Nat.le_refl _
  | cons b rest ih =>
    rw [branchAll, size_branch]
    exact Nat.le_add_right_of_le (ih b)

/-- The new edges lead from new states or to new states. -/
theorem keepsInside_branchAll (hpart : ∀ i ∈ part, i < g.size) (a : Ends) (rest : List Ends) :
    KeepsInside g (g.branchAll a rest).1 part := by
  induction rest generalizing a with
  | nil => exact KeepsInside.of_edges_eq fun _ _ => rfl
  | cons b rest ih =>
    refine (ih b).trans (keepsInside_branch fun i hi => ?_)
    exact Nat.lt_of_lt_of_le (hpart i hi) (size_le_branchAll g b rest)

end Operands

/-- One operand was made out of several and of new states; all other states keep their
edges. -/
structure Gathered (g : Graph) (os : List (Ends × Set Nat)) (r : Graph × Ends)
    (whole : Set Nat) : Prop where
  size_le : g.size ≤ r.1.size
  operand : r.1.Operand r.2 whole
  mem_old : ∀ i ∈ whole, i < g.size → ∃ o ∈ os, i ∈ o.2
  edges_old : ∀ i < g.size, (∀ o ∈ os, i ∉ o.2) → r.1.edges i = g.edges i

namespace Gathered

variable {g : Graph} {o : Ends × Set Nat} {rest : List (Ends × Set Nat)} {r : Graph × Ends}
  {whole : Set Nat} {i : Nat}

/-- One operand is gathered in itself. -/
theorem single (ho : g.Operand o.1 o.2) : Gathered g [o] (g, o.1) o.2 where
  size_le := Nat.le_refl _
  operand := ho
  mem_old _ hi _ := ⟨o, List.mem_cons_self, hi⟩
  edges_old _ _ _ := rfl

section Beside

variable (hos : g.Operands (o :: rest)) (hrest : Gathered g rest r whole)
include hos hrest

theorem edges_beside (hi : i ∈ o.2) : r.1.edges i = g.edges i :=
  hrest.edges_old i (hos.head.lt_size i hi)
    fun _ hp hmem => Set.disjoint_left.mp (hos.disjoint hp) hi hmem

/-- An operand that was not among them is still one. -/
theorem operand_beside : r.1.Operand o.1 o.2 :=
  hos.head.congr hrest.size_le fun _ hi => hrest.edges_beside hos hi

/-- Gathering leaves the languages of the operands beside it. -/
theorem through_beside : through (r.1, o.1) = through (g, o.1) :=
  hos.head.words_eq (fun _ hi => hrest.edges_beside hos hi) o.1.exit

theorem disjoint_beside : Disjoint o.2 whole := by
  refine Set.disjoint_left.mpr fun i hi hmem => ?_
  obtain ⟨p, hp, hip⟩ := hrest.mem_old i hmem (hos.head.lt_size i hi)
  exact Set.disjoint_left.mp (hos.disjoint hp) hi hip

/-- One more operand makes one operand with them. -/
theorem branch : Gathered g (o :: rest) (r.1.branch o.1 r.2)
    (o.2 ∪ whole ∪ {r.1.size, r.1.size + 1}) where
  size_le := by
    rw [size_branch]
    exact Nat.le_add_right_of_le hrest.size_le
  operand := (hrest.operand_beside hos).branch hrest.operand
  mem_old i hi hlt := by
    have hle := hrest.size_le
    rcases hi with (hi | hi) | rfl | rfl
    · exact ⟨o, List.mem_cons_self, hi⟩
    · obtain ⟨p, hp, hip⟩ := hrest.mem_old i hi hlt
      exact ⟨p, List.mem_cons_of_mem o hp, hip⟩
    · exact absurd hlt (by omega)
    · exact absurd hlt (by omega)
  edges_old i hlt hout := by
    obtain ⟨ho, hothers⟩ := List.forall_mem_cons.mp hout
    have hnew : i ∉ whole := fun hmem => by
      obtain ⟨p, hp, hip⟩ := hrest.mem_old i hmem hlt
      exact hothers p hp hip
    have hbranch := edges_branch (b := r.2) (Nat.lt_of_lt_of_le hlt hrest.size_le)
      (fun heq => ho (heq ▸ hos.head.exit_mem)) fun heq => hnew (heq ▸ hrest.operand.exit_mem)
    exact hbranch.trans (hrest.edges_old i hlt hothers)

end Beside

end Gathered

namespace Operands

variable {g : Graph} {o : Ends × Set Nat} {rest : List (Ends × Set Nat)}

/-- Alternatives of several operands gather them. -/
theorem exists_gathered_branchAll (hos : g.Operands (o :: rest)) :
    ∃ whole, Gathered g (o :: rest) (g.branchAll o.1 (rest.map Prod.fst)) whole := by
  induction rest generalizing o with
  | nil => exact ⟨o.2, Gathered.single hos.head⟩
  | cons p rest ih =>
    obtain ⟨whole, hrest⟩ := ih hos.tail
    exact ⟨_, hrest.branch hos⟩

/-- Any of the operands lets through what one of them lets through. -/
theorem through_branchAll (hos : g.Operands (o :: rest)) :
    through (g.branchAll o.1 (rest.map Prod.fst)) =
      ((o :: rest).map fun q => through (g, q.1)).sum := by
  induction rest generalizing o with
  | nil => exact (List.sum_singleton).symm
  | cons p rest ih =>
    obtain ⟨whole, hrest⟩ := exists_gathered_branchAll hos.tail
    calc through (g.branchAll o.1 ((p :: rest).map Prod.fst))
        = through (_, o.1) + through (g.branchAll p.1 (rest.map Prod.fst)) :=
          (hrest.operand_beside hos).through_branch hrest.operand (hrest.disjoint_beside hos)
      _ = through (g, o.1) + ((p :: rest).map fun q => through (g, q.1)).sum := by
          rw [hrest.through_beside hos, ih hos.tail]

end Operands

/-- Gluing operands that share no states.  In a row they let through what they let through
one after the other, and as alternatives what one of them lets through; one of them again
and again lets through repetitions of its words.  An operand whose entry has no incoming
edge may also be passed over.  No construction changes the edges inside another operand. -/
theorem glue_operands {g : Graph} {first : Ends × Set Nat} {rest : List (Ends × Set Nat)}
    (hos : g.Operands (first :: rest)) :
    (through (g.chainAll first.1 (rest.map Prod.fst)) =
        ((first :: rest).map fun o => through (g, o.1)).prod ∧
      ∀ o ∈ first :: rest, KeepsInside g (g.chainAll first.1 (rest.map Prod.fst)).1 o.2) ∧
    (through (g.branchAll first.1 (rest.map Prod.fst)) =
        ((first :: rest).map fun o => through (g, o.1)).sum ∧
      ∀ o ∈ first :: rest, KeepsInside g (g.branchAll first.1 (rest.map Prod.fst)).1 o.2) ∧
    ∀ o ∈ first :: rest,
      through (g.iterate o.1 .oneOrMore) = through (g, o.1) * (through (g, o.1))∗ ∧
      ((∀ i, ∀ e ∈ g.edges i, e.target ≠ o.1.entry) →
        through (g.iterate o.1 .zeroOrMore) = (through (g, o.1))∗ ∧
        through (g.iterate o.1 .optional) = 1 + through (g, o.1)) ∧
      ∀ how, ∀ p ∈ first :: rest, p ≠ o →
        ∀ i ∈ p.2, (g.iterate o.1 how).1.edges i = g.edges i := by
  refine ⟨⟨hos.through_chainAll, hos.keepsInside_chainAll⟩, ⟨hos.through_branchAll, ?_⟩, ?_⟩
  · exact fun o ho => Operands.keepsInside_branchAll (hos.each o ho).lt_size _ _
  · intro o ho
    have hoperand := hos.each o ho
    refine ⟨hoperand.through_iterate_oneOrMore, fun hsource => ?_, ?_⟩
    · have hback := hoperand.words_entry_eq_one fun i _ => hsource i
      rw [hoperand.through_iterate_zeroOrMore, hoperand.through_iterate_optional, hback]
      exact ⟨kstar_add_eq_iff.mpr one_le_kstar, add_comm _ _⟩
    · intro how p hp hne i hi
      have hnot : i ∉ o.2 := Set.disjoint_left.mp (hos.disjoint_of_ne hp ho hne) hi
      refine edges_iterate ?_ ?_ how
      · rintro rfl
        exact hnot hoperand.entry_mem
      · rintro rfl
        exact hnot hoperand.exit_mem

/-- The letters `a` and `b`, each between two states of its own. -/
def letters : Graph :=
  ((empty.addStep (CodeSet.single 97)).1.addStep (CodeSet.single 98)).1

theorem operands_letters : letters.Operands [(⟨2, 3⟩, {2, 3}), (⟨0, 1⟩, {0, 1})] :=
  ((Operands.operands_nil empty).addStep _).addStep _

theorem glue_operands_letters :
    letters.Operands [(⟨2, 3⟩, {2, 3}), (⟨0, 1⟩, {0, 1})] ∧
      through (letters.chainAll ⟨2, 3⟩ [⟨0, 1⟩]) =
        through (letters, ⟨2, 3⟩) * through (letters, ⟨0, 1⟩) ∧
      through (letters.branchAll ⟨2, 3⟩ [⟨0, 1⟩]) =
        through (letters, ⟨2, 3⟩) + through (letters, ⟨0, 1⟩) ∧
      through (letters.iterate ⟨2, 3⟩ .zeroOrMore) = (through (letters, ⟨2, 3⟩))∗ := by
  obtain ⟨⟨hchain, -⟩, ⟨hbranch, -⟩, heach⟩ := glue_operands operands_letters
  obtain ⟨-, hsource, -⟩ := heach _ List.mem_cons_self
  simp only [List.map_cons, List.map_nil, List.prod_cons, List.prod_nil, mul_one, List.sum_cons,
    List.sum_nil, add_zero] at hchain hbranch
  have hentry : ∀ i, ∀ e ∈ letters.edges i, e.target ≠ 2 := by
    intro i e he
    have hlt := lt_size_of_mem_edges he
    have hall : ∀ i < letters.size, ∀ e ∈ letters.edges i, e.target ≠ 2 := by decide
    exact hall i hlt e he
  exact ⟨operands_letters, hchain, hbranch, (hsource hentry).1⟩

end Graph
end Munch

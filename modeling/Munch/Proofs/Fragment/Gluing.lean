import Mathlib.Order.Interval.Set.Disjoint
import Munch.Proofs.Fragment.Operands
import Munch.Proofs.Graph.Copy

/-!
# Gluing fragments

A part that has been put behind a graph is known by two languages: the words that lead
from its entry to its exit, and the words that lead from its entry back to its entry.
The second one counts because quantifiers put edges on the entry, and a loop of an inner
quantifier may lead back there.

Main results:

- Theorem {lit}`Glued.chain`: one part after the other.
- Theorem {lit}`Glued.branch`: either part.
- Theorem {lit}`Glued.optional` and theorem {lit}`Glued.loop`: passing over a part and
  going through it again.
- Theorem {lit}`Fragment.Proper.glued_spliceInto`: a fragment put behind a graph.
-/

open scoped Computability

namespace Munch

/-! ## Graphs of patterns -/

/-- A closed graph without final states, whose labels hold characters or are silent. -/
structure Graph.Plain (g : Graph) : Prop where
  closed : g.Closed
  isFinal_eq : ∀ i, g.isFinal i = false
  label : ∀ i, ∀ e ∈ g.edges i, e.label = CodeSet.silent ∨ ∀ c ∈ e.label, c ∈ CodeSet.chars

namespace Graph

variable {g h k : Graph} {s t i j : Nat} {w : List Int} {label : CodeSet}

/-- There is nothing to check in the empty graph. -/
theorem plain_empty : empty.Plain where
  closed := closed_empty
  isFinal_eq _ := rfl
  label i e he := by
    rw [edges_eq_nil_of_size_le (Nat.zero_le i)] at he
    cases he

/-- In a plain graph only characters are read. -/
theorem Plain.mem_chars_of_path (hplain : g.Plain) (hpath : g.Path i w j) :
    ∀ c ∈ w, c ∈ CodeSet.chars := by
  induction hpath with
  | nil i =>
    intro c hc
    cases hc
  | silent _ _ _ ih => exact ih
  | read he hc hne _ ih =>
    refine List.forall_mem_cons.mpr ⟨?_, ih⟩
    rcases hplain.label _ _ he with hsilent | hchars
    · rw [hsilent] at hc
      exact absurd (CodeSet.mem_silent.mp hc) hne
    · exact hchars _ hc

/-- A state that is not final may be added. -/
theorem Plain.addState (hplain : g.Plain) : (g.addState false).Plain where
  closed := hplain.closed.addState false
  isFinal_eq i := by
    rw [isFinal_addState, hplain.isFinal_eq]
    exact ite_self false
  label i e he := by
    rw [edges_addState] at he
    exact hplain.label i e he

/-- An edge over characters, or a silent one, may be added between states. -/
theorem Plain.addEdge (hplain : g.Plain) (ht : t < g.size)
    (hlabel : label = CodeSet.silent ∨ ∀ c ∈ label, c ∈ CodeSet.chars) (s : Nat) :
    (g.addEdge s label t).Plain where
  closed := hplain.closed.addEdge ht s label
  isFinal_eq i := by
    rw [isFinal_addEdge]
    exact hplain.isFinal_eq i
  label i e he := by
    rcases mem_edges_of_mem_addEdge he with hold | ⟨-, rfl⟩
    · exact hplain.label i e hold
    · exact hlabel

/-- A graph continues another one behind its states, which keep their edges. -/
structure Continues (g h : Graph) : Prop where
  size_le : g.size ≤ h.size
  edges_old : ∀ i < g.size, h.edges i = g.edges i
  isPart : h.IsPart {i | g.size ≤ i}

namespace Continues

/-- A graph continues itself. -/
theorem refl (g : Graph) : Continues g g where
  size_le := Nat.le_refl _
  edges_old _ _ := rfl
  isPart i hi e he := by
    rw [edges_eq_nil_of_size_le hi] at he
    cases he

/-- Continuing twice is continuing. -/
theorem trans (hfirst : Continues g h) (hsecond : Continues h k) : Continues g k where
  size_le := Nat.le_trans hfirst.size_le hsecond.size_le
  edges_old i hi := by
    rw [hsecond.edges_old i (Nat.lt_of_lt_of_le hi hfirst.size_le), hfirst.edges_old i hi]
  isPart i hi e he := by
    by_cases hold : i < h.size
    · rw [hsecond.edges_old i hold] at he
      exact hfirst.isPart i hi e he
    · exact Nat.le_trans hfirst.size_le (hsecond.isPart i (Nat.not_lt.mp hold) e he)

/-- A new state leaves what was there. -/
theorem addState (hcont : Continues g h) (b : Bool) : Continues g (h.addState b) where
  size_le := by
    rw [size_addState]
    exact Nat.le_succ_of_le hcont.size_le
  edges_old i hi := by
    rw [edges_addState]
    exact hcont.edges_old i hi
  isPart := hcont.isPart.addState b

/-- An edge among new states leaves what was there. -/
theorem addEdge (hcont : Continues g h) (hs : g.size ≤ s) (ht : g.size ≤ t) (label : CodeSet) :
    Continues g (h.addEdge s label t) where
  size_le := by
    rw [size_addEdge]
    exact hcont.size_le
  edges_old i hi := by
    have hne : ¬(s = i ∧ i < h.size) := by omega
    rw [edges_addEdge, if_neg hne]
    exact hcont.edges_old i hi
  isPart := hcont.isPart.addEdge fun _ => ht

/-! ## Words across the border -/

/-- The old states keep the languages of their paths. -/
theorem words_old (hcont : Continues g h) (hclosed : g.Closed) (hi : i < g.size) :
    h.words i j = g.words i j :=
  words_congr hclosed.isPart hcont.edges_old hi

/-- No path leads from a new state to an old one. -/
theorem words_backward (hcont : Continues g h) (hi : g.size ≤ i) (hj : j < g.size) :
    h.words i j = 0 :=
  words_eq_zero hcont.isPart hi (Nat.not_le.mpr hj)

end Continues

/-- A plain graph has grown behind another one. -/
structure Grown (g h : Graph) : Prop extends Continues g h where
  plain : h.Plain

/-- A graph has grown from itself. -/
theorem Grown.refl (hplain : g.Plain) : Grown g g where
  toContinues := Continues.refl g
  plain := hplain

/-- Growing twice is growing. -/
theorem Grown.trans (hfirst : Grown g h) (hsecond : Grown h k) : Grown g k where
  toContinues := hfirst.toContinues.trans hsecond.toContinues
  plain := hsecond.plain

/-- A graph grows by a state. -/
theorem Grown.addState (hgrown : Grown g h) : Grown g (h.addState false) where
  toContinues := hgrown.toContinues.addState false
  plain := hgrown.plain.addState

/-- A graph grows by an edge among new states. -/
theorem Grown.addEdge (hgrown : Grown g h) (hs : g.size ≤ s) (ht : g.size ≤ t) (hlt : t < h.size)
    (hlabel : label = CodeSet.silent ∨ ∀ c ∈ label, c ∈ CodeSet.chars) :
    Grown g (h.addEdge s label t) where
  toContinues := hgrown.toContinues.addEdge hs ht label
  plain := hgrown.plain.addEdge hlt hlabel s

/-- A graph grows by a silent edge among new states. -/
theorem Grown.addSilent (hgrown : Grown g h) (hs : g.size ≤ s) (ht : g.size ≤ t)
    (hlt : t < h.size) : Grown g (h.addSilent s t) :=
  hgrown.addEdge hs ht hlt (Or.inl rfl)

end Graph

/-! ## Parts -/

/-- A part with the given ends has been put behind a graph.  The words of the first
language lead from its entry to its exit, those of the second back to its entry. -/
structure Glued (g h : Graph) (a : Ends) (matched returned : Language Int) : Prop
    extends Graph.Grown g h where
  le_entry : g.size ≤ a.entry
  le_exit : g.size ≤ a.exit
  entry_lt : a.entry < h.size
  exit_lt : a.exit < h.size
  entry_ne_exit : a.entry ≠ a.exit
  edges_exit : h.edges a.exit = []
  words_exit : h.words a.entry a.exit = matched
  words_entry : h.words a.entry a.entry = returned

namespace Glued

open Munch.Graph

variable {g h k : Graph} {a b : Ends} {l l' r r' : Language Int}

/-- The empty word returns to the entry. -/
theorem nil_mem_returned (hglued : Glued g h a l r) : 1 ≤ r :=
  hglued.words_entry ▸ one_le_words h a.entry

/-- Nothing but the empty word leads from the exit anywhere. -/
theorem words_exit_eq (hglued : Glued g h a l r) (j : Nat) :
    h.words a.exit j = if j = a.exit then 1 else 0 :=
  words_of_edges_eq_nil hglued.edges_exit

/-- The states of a part are an operand. -/
theorem operand (hglued : Glued g h a l r) : h.Operand a (Set.Ico g.size h.size) where
  isPart i hi e he := ⟨hglued.isPart i hi.1 e he, hglued.plain.closed i e he⟩
  lt_size _ hi := hi.2
  entry_mem := ⟨hglued.le_entry, hglued.entry_lt⟩
  exit_mem := ⟨hglued.le_exit, hglued.exit_lt⟩
  edges_exit := hglued.edges_exit

/-- They still are when the graph grows behind them. -/
theorem operand_old (hglued : Glued g h a l r) (hgrown : Grown h k) :
    k.Operand a (Set.Ico g.size h.size) :=
  hglued.operand.congr hgrown.size_le fun i hi => hgrown.edges_old i hi.2

/-- A part is the same part when another one grows behind it. -/
theorem extend (hglued : Glued g h a l r) (hgrown : Grown h k) : Glued g k a l r where
  toGrown := hglued.toGrown.trans hgrown
  le_entry := hglued.le_entry
  le_exit := hglued.le_exit
  entry_lt := Nat.lt_of_lt_of_le hglued.entry_lt hgrown.size_le
  exit_lt := Nat.lt_of_lt_of_le hglued.exit_lt hgrown.size_le
  entry_ne_exit := hglued.entry_ne_exit
  edges_exit := by rw [hgrown.edges_old _ hglued.exit_lt, hglued.edges_exit]
  words_exit := by rw [hgrown.words_old hglued.plain.closed hglued.entry_lt, hglued.words_exit]
  words_entry := by rw [hgrown.words_old hglued.plain.closed hglued.entry_lt, hglued.words_entry]

/-- A part behind a grown graph is behind the graph it grew from. -/
theorem behind (hgrown : Grown g h) (hglued : Glued h k b l r) : Glued g k b l r where
  toGrown := hgrown.trans hglued.toGrown
  le_entry := Nat.le_trans hgrown.size_le hglued.le_entry
  le_exit := Nat.le_trans hgrown.size_le hglued.le_exit
  entry_lt := hglued.entry_lt
  exit_lt := hglued.exit_lt
  entry_ne_exit := hglued.entry_ne_exit
  edges_exit := hglued.edges_exit
  words_exit := hglued.words_exit
  words_entry := hglued.words_entry

/-! ## One part after the other -/

/-- One part after the other. -/
theorem chain (hfirst : Glued g h a l r) (hsecond : Glued h k b l' r') :
    Glued g (k.chain a b).1 (k.chain a b).2 (l * l') r := by
  have hfirst' := hfirst.extend hsecond.toGrown
  have hold := hfirst.operand_old hsecond.toGrown
  have hapart := Set.Ico_disjoint_Ico_same (a := g.size) (b := h.size) (c := k.size)
  have hrow := hold.chain hsecond.operand hapart
  have hle := Nat.le_trans hfirst.size_le hsecond.le_exit
  have hle' := Nat.le_trans hfirst.size_le hsecond.le_entry
  exact
    { toGrown := hfirst'.toGrown.addSilent hfirst.le_exit hle' hsecond.entry_lt
      le_entry := hfirst.le_entry
      le_exit := hle
      entry_lt := hrow.entry_lt
      exit_lt := hrow.exit_lt
      entry_ne_exit := Nat.ne_of_lt (Nat.lt_of_lt_of_le hfirst.entry_lt hsecond.le_exit)
      edges_exit := hrow.edges_exit
      words_exit := by
        rw [← hfirst'.words_exit, ← hsecond.words_exit]
        exact hold.through_chain hsecond.operand hapart
      words_entry := by
        rw [← hfirst'.words_entry]
        exact hold.words_entry_chain hsecond.operand hapart }

/-! ## Passing over a part and going through it again -/

/-- A silent edge from the entry to the exit adds what leads back to the entry. -/
theorem optional (hglued : Glued g h a l r) :
    Glued g (h.addSilent a.entry a.exit) a (l + r) r := by
  have hback : h.words a.exit a.entry = 0 := by
    rw [hglued.words_exit_eq, if_neg hglued.entry_ne_exit]
  refine
    { toGrown := hglued.toGrown.addSilent hglued.le_entry hglued.le_exit hglued.exit_lt
      le_entry := hglued.le_entry
      le_exit := hglued.le_exit
      entry_lt := by simpa using hglued.entry_lt
      exit_lt := by simpa using hglued.exit_lt
      entry_ne_exit := hglued.entry_ne_exit
      edges_exit := ?_
      words_exit := ?_
      words_entry := ?_ }
  · rw [addSilent, edges_addEdge, if_neg fun hand => hglued.entry_ne_exit hand.1,
      hglued.edges_exit]
  · rw [← hglued.words_exit, ← hglued.words_entry]
    exact hglued.operand.through_bypass_optional
  · rw [words_addSilent_of_sink hglued.entry_lt hback, hglued.words_entry]

/-- A new state behind the exit of a part that may have edges there. -/
theorem widen (hgrown : Grown g h) (hentry : g.size ≤ a.entry) (hexit : g.size ≤ a.exit)
    (hentry_lt : a.entry < h.size) (hexit_lt : a.exit < h.size) :
    Glued g ((h.addState false).addSilent a.exit h.size) ⟨a.entry, h.size⟩
      (h.words a.entry a.exit) (h.words a.entry a.entry) := by
  have hnew : h.size < (h.addState false).size := by
    rw [size_addState]
    exact Nat.lt_succ_self _
  have hacross : h.words a.entry h.size = 0 :=
    words_eq_zero hgrown.plain.closed.isPart hentry_lt (Nat.lt_irrefl _)
  refine
    { toGrown := hgrown.addState.addSilent hexit hgrown.size_le hnew
      le_entry := hentry
      le_exit := hgrown.size_le
      entry_lt := by simpa using Nat.lt_succ_of_lt hentry_lt
      exit_lt := by simp
      entry_ne_exit := Nat.ne_of_lt hentry_lt
      edges_exit := ?_
      words_exit := words_newExit hexit_lt hacross
      words_entry := words_newExit_of_lt hexit_lt hentry_lt }
  rw [addSilent, edges_addEdge, if_neg fun hand => Nat.ne_of_lt hexit_lt hand.1, edges_addState]
  exact edges_eq_nil_of_size_le (Nat.le_refl _)

/-- A silent edge from the exit to the entry, with a new exit behind it. -/
theorem loop (hglued : Glued g h a l r) :
    Glued g ((h.addSilent a.exit a.entry).freeExit a).1 ((h.addSilent a.exit a.entry).freeExit a).2
      (l * l∗) (l∗ * r) := by
  have hgrown : Grown g (h.addSilent a.exit a.entry) :=
    hglued.toGrown.addSilent hglued.le_exit hglued.le_entry hglued.entry_lt
  have hedges : ((h.addSilent a.exit a.entry).edges a.exit).isEmpty = false := by
    rw [addSilent, edges_addEdge, if_pos ⟨rfl, hglued.exit_lt⟩, hglued.edges_exit]
    rfl
  have hmatched : (h.addSilent a.exit a.entry).words a.entry a.exit = l * l∗ := by
    rw [words_addSilent_back hglued.exit_lt, hglued.words_exit]
  have hreturned : (h.addSilent a.exit a.entry).words a.entry a.entry = l∗ * r := by
    rw [words_addSilent_target hglued.exit_lt, hglued.words_exit, hglued.words_entry]
  have hwiden := widen (a := a) hgrown hglued.le_entry hglued.le_exit
    (by simpa using hglued.entry_lt) (by simpa using hglued.exit_lt)
  rw [hmatched, hreturned] at hwiden
  rw [freeExit, hedges]
  exact hwiden

/-! ## Single steps -/

/-- Two new states joined by one edge. -/
theorem step (hplain : g.Plain) {label : CodeSet} (hlabel : ∀ c ∈ label, c ∈ CodeSet.chars) :
    Glued g (g.addStep label).1 (g.addStep label).2 (steps label) 1 := by
  have hgrown : Grown g ((g.addState false).addState false) :=
    (Grown.refl hplain).addState.addState
  have hnew : g.size + 1 < ((g.addState false).addState false).size := by
    rw [size_addState, size_addState]
    exact Nat.lt_succ_self _
  have hstep := Operand.addStep g label
  exact
    { toGrown := hgrown.addEdge (Nat.le_refl _) (Nat.le_succ _) hnew (Or.inr hlabel)
      le_entry := Nat.le_refl _
      le_exit := Nat.le_succ _
      entry_lt := hstep.entry_lt
      exit_lt := hstep.exit_lt
      entry_ne_exit := Nat.ne_of_lt (Nat.lt_succ_self _)
      edges_exit := hstep.edges_exit
      words_exit := Operand.through_addStep g label
      words_entry := Operand.words_entry_addStep g label }

/-! ## Either part -/

/-- A fork is built from new states only. -/
theorem grown_fork (hgrown : Grown g k) (ha : g.size ≤ a.entry) (hb : g.size ≤ b.entry)
    (ha' : a.entry < k.size) (hb' : b.entry < k.size) : Grown g (fork k a b) := by
  have hsize : ((k.addState false).addState false).size = k.size + 2 := by simp
  refine (hgrown.addState.addState.addSilent hgrown.size_le ha ?_).addSilent hgrown.size_le hb ?_
  · omega
  · rw [size_addSilent]
    omega

/-- Either part, between two new states. -/
theorem branch (hfirst : Glued g h a l r) (hsecond : Glued h k b l' r') :
    Glued g (k.branch a b).1 (k.branch a b).2 (l + l') 1 := by
  have hfirst' := hfirst.extend hsecond.toGrown
  have hold := hfirst.operand_old hsecond.toGrown
  have hapart := Set.Ico_disjoint_Ico_same (a := g.size) (b := h.size) (c := k.size)
  have heither := hold.branch hsecond.operand
  have hle := Nat.le_succ_of_le hfirst'.size_le
  have hforked := grown_fork hfirst'.toGrown hfirst'.le_entry
    (Nat.le_trans hfirst.size_le hsecond.le_entry) hfirst'.entry_lt hsecond.entry_lt
  have hlt : k.size + 1 < (fork k a b).size := by
    rw [size_fork]
    exact Nat.lt_succ_self _
  have hgrown : Grown g (k.branch a b).1 :=
    (hforked.addSilent hfirst.le_exit hle hlt).addSilent
      (Nat.le_trans hfirst.size_le hsecond.le_exit) hle (by rwa [size_addSilent])
  exact
    { toGrown := hgrown
      le_entry := hfirst'.size_le
      le_exit := hle
      entry_lt := heither.entry_lt
      exit_lt := heither.exit_lt
      entry_ne_exit := Nat.ne_of_lt (Nat.lt_succ_self _)
      edges_exit := heither.edges_exit
      words_exit := by
        rw [← hfirst'.words_exit, ← hsecond.words_exit]
        exact hold.through_branch hsecond.operand hapart
      words_entry := hold.words_entry_branch hsecond.operand }

end Glued

/-! ## Fragments by themselves -/

namespace Fragment

/-- A plain automaton whose exit has no edges and is not the entry. -/
structure Proper (f : Fragment) : Prop where
  plain : f.graph.Plain
  entry_lt : f.ends.entry < f.graph.size
  exit_lt : f.ends.exit < f.graph.size
  entry_ne_exit : f.ends.entry ≠ f.ends.exit
  edges_exit : f.graph.edges f.ends.exit = []

/-- The words that lead through a fragment. -/
def matched (f : Fragment) : Language Int := f.graph.words f.ends.entry f.ends.exit

/-- The words that lead from the entry back to the entry. -/
def returned (f : Fragment) : Language Int := f.graph.words f.ends.entry f.ends.entry

namespace Proper

open Munch.Graph

variable {f : Fragment} (hproper : f.Proper) {g : Graph}
include hproper

/-- A copy from both ends contains the entry. -/
theorem entry_mem : f.ends.entry ∈ f.graph.reachableFrom [f.ends.entry, f.ends.exit] :=
  mem_reachableFrom_of_mem List.mem_cons_self hproper.entry_lt

/-- A copy from both ends contains the exit. -/
theorem exit_mem : f.ends.exit ∈ f.graph.reachableFrom [f.ends.entry, f.ends.exit] :=
  mem_reachableFrom_of_mem (List.mem_cons_of_mem _ List.mem_cons_self) hproper.exit_lt

/-- The states of a copy are not final, and the others keep their flags. -/
theorem isFinal_copyInto (g : Graph) (roots : List Nat) (i : Nat) :
    (f.graph.copyInto roots g).1.isFinal i = (decide (i < g.size) && g.isFinal i) := by
  by_cases hlow : i < g.size
  · rw [isFinal_copyInto_of_lt hlow, decide_eq_true hlow, Bool.true_and]
  · rw [decide_eq_false hlow, Bool.false_and]
    by_cases hhigh : i < (f.graph.copyInto roots g).1.size
    · obtain ⟨j, hj, rfl⟩ := exists_eq_copyInto_name g (Nat.not_lt.mp hlow) hhigh
      rw [isFinal_copyInto_name hj, hproper.plain.isFinal_eq]
    · have hnone : (f.graph.copyInto roots g).1.states[i]? = none :=
        Array.getElem?_eq_none (Nat.not_lt.mp hhigh)
      rw [isFinal, hnone]
      rfl

/-- The copy of a plain graph is plain. -/
theorem plain_copyInto (hplain : g.Plain) (roots : List Nat) :
    (f.graph.copyInto roots g).1.Plain := by
  refine ⟨closed_copyInto hproper.plain.closed hplain.closed, fun i => ?_, fun i e he => ?_⟩
  · rw [hproper.isFinal_copyInto, hplain.isFinal_eq, Bool.and_false]
  · by_cases hlow : i < g.size
    · rw [edges_copyInto_of_lt hlow] at he
      exact hplain.label i e he
    · obtain ⟨j, hj, rfl⟩ :=
        exists_eq_copyInto_name g (Nat.not_lt.mp hlow) (lt_size_of_mem_edges he)
      rw [edges_copyInto_name hj] at he
      obtain ⟨e', he', rfl⟩ := List.mem_map.mp he
      exact hproper.plain.label j e' he'

/-- Splicing embeds the fragment's states in the new graph. -/
theorem embeds_spliceInto (g : Graph) :
    Embeds f.graph (f.spliceInto g).1 (f.graph.copyInto [f.ends.entry, f.ends.exit] g).2
      {i | i ∈ f.graph.reachableFrom [f.ends.entry, f.ends.exit]} :=
  embeds_copyInto g [f.ends.entry, f.ends.exit] hproper.plain.closed

/-- A fragment put behind a graph continues it. -/
theorem continues_spliceInto (g : Graph) : Continues g (f.spliceInto g).1 where
  size_le := by
    rw [Fragment.spliceInto, size_copyInto]
    exact Nat.le_add_right _ _
  edges_old i hi := edges_copyInto_of_lt hi
  isPart i hi e he := by
    obtain ⟨j, hj, rfl⟩ := exists_eq_copyInto_name g hi (lt_size_of_mem_edges he)
    change e ∈ (f.graph.copyInto [f.ends.entry, f.ends.exit] g).1.edges _ at he
    rw [edges_copyInto_name hj] at he
    obtain ⟨e', he', rfl⟩ := List.mem_map.mp he
    exact size_le_copyInto_name g (isPart_reachableFrom hproper.plain.closed j hj e' he')

/-- The entry of the copy is a new state. -/
theorem size_le_entry_spliceInto (g : Graph) : g.size ≤ (f.spliceInto g).2.entry :=
  size_le_copyInto_name g hproper.entry_mem

/-- The exit of the copy is a new state. -/
theorem size_le_exit_spliceInto (g : Graph) : g.size ≤ (f.spliceInto g).2.exit :=
  size_le_copyInto_name g hproper.exit_mem

/-- The entry of the copy is a state of the new graph. -/
theorem entry_spliceInto_lt (g : Graph) : (f.spliceInto g).2.entry < (f.spliceInto g).1.size :=
  copyInto_name_lt_size g hproper.entry_mem

/-- The exit of the copy is a state of the new graph. -/
theorem exit_spliceInto_lt (g : Graph) : (f.spliceInto g).2.exit < (f.spliceInto g).1.size :=
  copyInto_name_lt_size g hproper.exit_mem

/-- The words through a fragment stay the same behind another graph. -/
theorem words_spliceInto (g : Graph) :
    (f.spliceInto g).1.words (f.spliceInto g).2.entry (f.spliceInto g).2.exit = f.matched := by
  ext w
  exact (hproper.embeds_spliceInto g).path_iff (injOn_copyInto_name g) hproper.entry_mem
    hproper.exit_mem

/-- A fragment put behind a plain graph. -/
theorem glued_spliceInto (hplain : g.Plain) :
    Glued g (f.spliceInto g).1 (f.spliceInto g).2 f.matched f.returned := by
  refine
    { toContinues := hproper.continues_spliceInto g
      plain := hproper.plain_copyInto hplain _
      le_entry := hproper.size_le_entry_spliceInto g
      le_exit := hproper.size_le_exit_spliceInto g
      entry_lt := hproper.entry_spliceInto_lt g
      exit_lt := hproper.exit_spliceInto_lt g
      entry_ne_exit := fun heq =>
        hproper.entry_ne_exit (injOn_copyInto_name g hproper.entry_mem hproper.exit_mem heq)
      edges_exit := ?_
      words_exit := hproper.words_spliceInto g
      words_entry := ?_ }
  · change (f.graph.copyInto [f.ends.entry, f.ends.exit] g).1.edges _ = []
    rw [Fragment.spliceInto, edges_copyInto_name hproper.exit_mem, hproper.edges_exit]
    rfl
  · ext w
    exact (hproper.embeds_spliceInto g).path_iff (injOn_copyInto_name g) hproper.entry_mem
      hproper.entry_mem

end Proper

/-- A part with its graph is a fragment. -/
theorem proper_of_glued {g h : Graph} {a : Ends} {l r : Language Int} (hglued : Glued g h a l r) :
    Proper ⟨h, a⟩ where
  plain := hglued.plain
  entry_lt := hglued.entry_lt
  exit_lt := hglued.exit_lt
  entry_ne_exit := hglued.entry_ne_exit
  edges_exit := hglued.edges_exit

end Fragment

/-- The part between two ends is a fragment with the languages of the part. -/
theorem Glued.fragmentAt {g h : Graph} {a : Ends} {l r : Language Int} (hglued : Glued g h a l r) :
    Glued Graph.empty (h.fragmentAt a).graph (h.fragmentAt a).ends l r := by
  have hspliced := (Fragment.proper_of_glued hglued).glued_spliceInto Graph.plain_empty
  rw [Fragment.matched, Fragment.returned, hglued.words_exit, hglued.words_entry] at hspliced
  exact hspliced

end Munch

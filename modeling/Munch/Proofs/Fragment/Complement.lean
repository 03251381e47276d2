import Munch.Graph.Complement
import Munch.Proofs.Fragment.Gluing
import Munch.Proofs.Graph.Least

/-!
# Prefix complements

The automaton of a prefix complement is a minimal automaton turned round: final states
stop accepting, and every other state leads to a new exit, without input and on the
characters it has no edge for.  A word leads to the exit when it is a beginning of a word
of the language but not one itself, or such a beginning and one character after which no
word of the language can be reached.

Main results:

- Theorem {lit}`Fragment.Proper.turnedRound`: the result is a fragment.
- Theorem {lit}`Fragment.Proper.matched_turnedRound`: the words of the result.
- Theorem {lit}`Fragment.Proper.returned_turnedRound`: nothing leads back to its entry.
-/

namespace Munch

/-- The beginnings of the words of a language, and the empty word. -/
def beginnings (l : Language Int) : Language Int := {u | u = [] ∨ ∃ v, u ++ v ∈ l}

/-- The words that leave a language: beginnings that are not words of it, and such
beginnings with one character after them that makes no beginning. -/
def leavings (l : Language Int) : Language Int :=
  {w | (w ∈ beginnings l ∧ w ∉ l) ∨
    ∃ u c, w = u ++ [c] ∧ (u ∈ beginnings l ∧ u ∉ l) ∧ c ∈ CodeSet.chars ∧ w ∉ beginnings l}

/-- A beginning is the empty word or goes on to a word of the language. -/
theorem mem_beginnings {l : Language Int} {u : List Int} :
    u ∈ beginnings l ↔ u = [] ∨ ∃ v, u ++ v ∈ l :=
  Iff.rfl

/-- The leavings are the open beginnings and the words that leave the beginnings by one character.
-/
theorem mem_leavings {l : Language Int} {w : List Int} :
    w ∈ leavings l ↔ (w ∈ beginnings l ∧ w ∉ l) ∨
      ∃ u c, w = u ++ [c] ∧ (u ∈ beginnings l ∧ u ∉ l) ∧ c ∈ CodeSet.chars ∧ w ∉ beginnings l :=
  Iff.rfl

namespace Graph

variable {d : Graph} {i j : Nat} {e : Edge} {u w : List Int} {c : Int} {s : State}

/-! ## Turning an automaton round -/

/-- A graph whose states other than the final ones lead to a new exit. -/
def turnedRound (d : Graph) : Graph :=
  (⟨d.states.map (leaveTo d.size)⟩ : Graph).addState false

/-- Turning round adds one state, the sink. -/
@[simp]
theorem size_turnedRound : d.turnedRound.size = d.size + 1 := by
  rw [turnedRound, size_addState]
  simp [size]

/-- A character is untaken when no edge of the state has it. -/
theorem mem_untaken_iff : c ∈ untaken s ↔ c ∈ CodeSet.chars ∧ ∀ e ∈ s.edges, c ∉ e.label := by
  have hfold : ∀ (es : List Edge) (rest : CodeSet),
      c ∈ es.foldl (fun rest e => rest.diff e.label) rest ↔
        c ∈ rest ∧ ∀ e ∈ es, c ∉ e.label := by
    intro es
    induction es with
    | nil => simp
    | cons e es ih =>
      intro rest
      rw [List.foldl_cons, ih, CodeSet.mem_diff, List.forall_mem_cons, and_assoc]
  exact hfold s.edges CodeSet.chars

/-- No state is final after it leads to the sink. -/
theorem isFinal_leaveTo (sink : Nat) : (leaveTo sink s).isFinal = false := by
  rw [leaveTo]
  split
  · rfl
  · rename_i hfinal
    exact Bool.eq_false_iff.mpr hfinal

/-- The edges of a state turned round: its own ones, and those to the exit. -/
theorem mem_edges_leaveTo_iff (sink : Nat) :
    e ∈ (leaveTo sink s).edges ↔
      e ∈ s.edges ∨ s.isFinal = false ∧ e.target = sink ∧
        (e.label = CodeSet.silent ∨ e.label = untaken s ∧ (untaken s).isEmpty = false) := by
  obtain ⟨label, target⟩ := e
  rw [leaveTo]
  split
  · rename_i hfinal
    simp [hfinal]
  · rename_i hfinal
    have hfalse := Bool.eq_false_iff.mpr hfinal
    cases hempty : (untaken s).isEmpty <;> simp [hempty, hfalse, or_comm, and_comm, and_or_left]

/-- Nothing is final in the graph turned round. -/
theorem isFinal_turnedRound : d.turnedRound.isFinal i = false := by
  rw [turnedRound, isFinal_addState]
  split
  · rfl
  · rw [isFinal, Array.getElem?_map]
    cases d.states[i]? with
    | none => rfl
    | some s => exact isFinal_leaveTo d.size

/-- The edges turned round are the old ones and, at states not final, those to the sink. -/
theorem mem_edges_turnedRound_iff :
    e ∈ d.turnedRound.edges i ↔
      e ∈ d.edges i ∨ i < d.size ∧ d.isFinal i = false ∧ e.target = d.size ∧
        (e.label = CodeSet.silent ∨
          (∃ c, c ∈ e.label) ∧
            ∀ c, c ∈ e.label ↔ c ∈ CodeSet.chars ∧ ∀ f ∈ d.edges i, c ∉ f.label) := by
  rw [turnedRound, edges_addState]
  by_cases hi : i < d.size
  · have hget : d.states[i]? = some d.states[i] := Array.getElem?_eq_getElem hi
    have hedges : d.edges i = d.states[i].edges := by rw [edges, hget]; rfl
    have hfinal : d.isFinal i = d.states[i].isFinal := by rw [isFinal, hget]; rfl
    have hturned : (⟨d.states.map (leaveTo d.size)⟩ : Graph).edges i =
        (leaveTo d.size d.states[i]).edges := by
      rw [edges, Array.getElem?_map, hget]
      rfl
    rw [hturned, mem_edges_leaveTo_iff, hedges, hfinal]
    simp only [hi, true_and, ← mem_untaken_iff]
    refine or_congr_right (and_congr_right fun _ => and_congr_right fun _ => or_congr_right ?_)
    constructor
    · rintro ⟨hlabel, hempty⟩
      rw [hlabel]
      exact ⟨CodeSet.isEmpty_eq_false_iff.mp hempty, fun c => Iff.rfl⟩
    · rintro ⟨⟨c, hc⟩, hlabel⟩
      exact ⟨CodeSet.eq_of_forall_mem_iff hlabel,
        CodeSet.isEmpty_eq_false_iff.mpr ⟨c, (hlabel c).mp hc⟩⟩
  · have hnone : d.edges i = [] := edges_eq_nil_of_size_le (Nat.not_lt.mp hi)
    have hturned : (⟨d.states.map (leaveTo d.size)⟩ : Graph).edges i = [] := by
      refine edges_eq_nil_of_size_le ?_
      rw [size, Array.size_map]
      exact Nat.not_lt.mp hi
    simp [hturned, hnone, hi]

/-- The exit has no edges. -/
theorem edges_turnedRound_size : d.turnedRound.edges d.size = [] := by
  refine List.eq_nil_iff_forall_not_mem.mpr fun e he => ?_
  rcases mem_edges_turnedRound_iff.mp he with hold | ⟨hlt, -⟩
  · exact absurd (lt_size_of_mem_edges hold) (Nat.lt_irrefl _)
  · exact absurd hlt (Nat.lt_irrefl _)

/-- An old state is reached as before. -/
theorem path_turnedRound_iff (hj : j < d.size) : d.turnedRound.Path i w j ↔ d.Path i w j := by
  have hexit : ∀ w, ¬d.turnedRound.Path d.size w j := by
    intro w hpath
    have heq := (hpath.eq_of_edges_eq_nil edges_turnedRound_size).2
    omega
  constructor
  · intro hpath
    induction hpath with
    | nil i => exact Path.nil i
    | silent he hsilent rest ih =>
      rcases mem_edges_turnedRound_iff.mp he with hold | ⟨-, -, htarget, -⟩
      · exact Path.silent hold hsilent (ih hj hexit)
      · exact absurd (htarget ▸ rest) (hexit _)
    | read he hc hne rest ih =>
      rcases mem_edges_turnedRound_iff.mp he with hold | ⟨-, -, htarget, -⟩
      · exact Path.read hold hc hne (ih hj hexit)
      · exact absurd (htarget ▸ rest) (hexit _)
  · exact Path.mono fun i e he => mem_edges_turnedRound_iff.mpr (Or.inl he)

/-- The exit is reached from a state that is not final, without input or on a character
that the state has no edge for. -/
theorem path_turnedRound_size_iff (hclosed : d.Closed) (hi : i < d.size) :
    d.turnedRound.Path i w d.size ↔
      ∃ u j, d.Path i u j ∧ j < d.size ∧ d.isFinal j = false ∧
        (w = u ∨ ∃ c, w = u ++ [c] ∧ c ∈ CodeSet.chars ∧ ∀ f ∈ d.edges j, c ∉ f.label) := by
  have hend : ∀ {w}, d.turnedRound.Path d.size w d.size → w = [] :=
    fun hpath => (hpath.eq_of_edges_eq_nil edges_turnedRound_size).1
  constructor
  · intro hpath
    generalize hsink : d.size = sink at hpath
    induction hpath with
    | nil i => exact absurd hi (Nat.not_lt.mpr (Nat.le_of_eq hsink))
    | @silent i k e w he hsilent rest ih =>
      subst hsink
      rcases mem_edges_turnedRound_iff.mp he with hold | ⟨-, hfinal, htarget, hlabel⟩
      · obtain ⟨u, j, hfirst, hrest⟩ := ih (hclosed i e hold) rfl
        exact ⟨u, j, Path.silent hold hsilent hfirst, hrest⟩
      · rw [htarget] at rest
        exact ⟨[], i, Path.nil i, hi, hfinal, Or.inl (hend rest)⟩
    | @read i k e c w he hc hne rest ih =>
      subst hsink
      rcases mem_edges_turnedRound_iff.mp he with hold | ⟨-, hfinal, htarget, hlabel⟩
      · obtain ⟨u, j, hfirst, hj, hfinal, hrest⟩ := ih (hclosed i e hold) rfl
        refine ⟨c :: u, j, Path.read hold hc hne hfirst, hj, hfinal, ?_⟩
        rcases hrest with rfl | ⟨c', rfl, hc'⟩
        · exact Or.inl rfl
        · exact Or.inr ⟨c', rfl, hc'⟩
      · rw [htarget] at rest
        obtain rfl := hend rest
        rcases hlabel with hsilent | ⟨-, huntaken⟩
        · rw [hsilent, CodeSet.mem_silent] at hc
          exact absurd hc hne
        · exact ⟨[], i, Path.nil i, hi, hfinal, Or.inr ⟨c, rfl, (huntaken c).mp hc⟩⟩
  · rintro ⟨u, j, hpath, hj, hfinal, hlast⟩
    have hfirst := (path_turnedRound_iff hj).mpr hpath
    rcases hlast with rfl | ⟨c, rfl, hc, hnone⟩
    · have hedge : ⟨CodeSet.silent, d.size⟩ ∈ d.turnedRound.edges j :=
        mem_edges_turnedRound_iff.mpr (Or.inr ⟨hj, hfinal, rfl, Or.inl rfl⟩)
      have hsecond := Path.silent hedge (CodeSet.mem_silent.mpr rfl) (Path.nil d.size)
      simpa using hfirst.append hsecond
    · have hmem : ∀ c, c ∈ untaken ⟨false, d.edges j⟩ ↔
          c ∈ CodeSet.chars ∧ ∀ f ∈ d.edges j, c ∉ f.label := fun c => mem_untaken_iff
      have hc' := (hmem c).mpr ⟨hc, hnone⟩
      have hedge : ⟨untaken ⟨false, d.edges j⟩, d.size⟩ ∈ d.turnedRound.edges j :=
        mem_edges_turnedRound_iff.mpr (Or.inr ⟨hj, hfinal, rfl, Or.inr ⟨⟨c, hc'⟩, hmem⟩⟩)
      have hne : c ≠ Code.silent := by
        rintro rfl
        exact absurd hc (by decide)
      exact hfirst.append (Path.of_edge hedge hc' hne)

/-- The graph turned round can be built on. -/
theorem plain_turnedRound (hclosed : d.Closed)
    (hchars : ∀ i, ∀ e ∈ d.edges i, ∀ c ∈ e.label, c ∈ CodeSet.chars) : d.turnedRound.Plain where
  closed i e he := by
    rw [size_turnedRound]
    rcases mem_edges_turnedRound_iff.mp he with hold | ⟨-, -, htarget, -⟩
    · exact Nat.lt_succ_of_lt (hclosed i e hold)
    · rw [htarget]
      exact Nat.lt_succ_self _
  isFinal_eq _ := isFinal_turnedRound
  label i e he := by
    rcases mem_edges_turnedRound_iff.mp he with hold | ⟨-, -, -, hsilent | ⟨-, huntaken⟩⟩
    · exact Or.inr (hchars i e hold)
    · exact Or.inl hsilent
    · exact Or.inr fun c hc => ((huntaken c).mp hc).1

end Graph
/-! ## The minimal automaton of a fragment -/

namespace Fragment

/-- The minimal automaton of the words that lead through a fragment. -/
def automaton (f : Fragment) : Graph :=
  (f.graph.setFinal f.ends.exit true).minimal f.ends.entry

/-- The automaton of a fragment turned round, as a fragment. -/
def turnedRound (f : Fragment) : Fragment :=
  ⟨f.automaton.turnedRound, ⟨0, f.automaton.size⟩⟩

namespace Proper

open Munch.Graph

variable {f : Fragment} (hproper : f.Proper) {u w : List Int} {i j : Nat} {c : Int}
include hproper

/-- The entry is still a state once the exit is final. -/
theorem size_setFinal_exit : f.ends.entry < (f.graph.setFinal f.ends.exit true).size := by
  rw [size_setFinal]
  exact hproper.entry_lt

/-- Making the exit final keeps the graph closed. -/
theorem closed_setFinal_exit : (f.graph.setFinal f.ends.exit true).Closed := by
  intro i e he
  rw [edges_setFinal] at he
  rw [size_setFinal]
  exact hproper.plain.closed i e he

omit hproper in
/-- Making the exit final changes no path. -/
theorem path_setFinal_exit_iff :
    (f.graph.setFinal f.ends.exit true).Path i w j ↔ f.graph.Path i w j :=
  path_congr_of_edges fun _ => edges_setFinal true

/-- With its exit final, a fragment accepts the words that lead through it. -/
theorem accepts_setFinal_exit_iff :
    (f.graph.setFinal f.ends.exit true).Accepts f.ends.entry w ↔ w ∈ f.matched := by
  constructor
  · rintro ⟨j, hpath, hfinal⟩
    rw [isFinal_setFinal] at hfinal
    split at hfinal
    · rename_i hand
      rw [← hand.1] at hpath
      exact path_setFinal_exit_iff.mp hpath
    · rw [hproper.plain.isFinal_eq] at hfinal
      cases hfinal
  · intro hw
    refine ⟨f.ends.exit, path_setFinal_exit_iff.mpr hw, ?_⟩
    rw [isFinal_setFinal, if_pos ⟨rfl, hproper.exit_lt⟩]

/-- Every state of the automaton leads to a final one. -/
theorem trim_automaton : f.automaton.Trim :=
  trim_minimal hproper.closed_setFinal_exit hproper.size_setFinal_exit

/-- The automaton is over the alphabet. -/
theorem inAlphabet_automaton : f.automaton.InAlphabet :=
  inAlphabet_minimal hproper.closed_setFinal_exit hproper.size_setFinal_exit

/-- The automaton accepts what the fragment matches. -/
theorem accepts_automaton_iff (hw : IsWord w) : f.automaton.Accepts 0 w ↔ w ∈ f.matched := by
  rw [automaton, accepts_minimal_iff hproper.closed_setFinal_exit hproper.size_setFinal_exit hw,
    hproper.accepts_setFinal_exit_iff]

/-- The words that lead through a fragment consist of characters. -/
theorem mem_chars_of_mem_matched (hw : w ∈ f.matched) : ∀ c ∈ w, c ∈ CodeSet.chars :=
  hproper.plain.mem_chars_of_path hw

/-- A fragment matches words only. -/
theorem isWord_of_mem_matched (hw : w ∈ f.matched) : IsWord w :=
  isWord_of_mem_chars (hproper.mem_chars_of_mem_matched hw)

/-- The automaton has a path on the beginnings of its words, and on nothing else. -/
theorem exists_path_automaton_iff :
    (∃ i, f.automaton.Path 0 u i) ↔ u ∈ beginnings f.matched := by
  have htrim := hproper.trim_automaton
  constructor
  · rintro ⟨i, hpath⟩
    have hu := hproper.inAlphabet_automaton.isWord_of_path hpath
    rcases Nat.eq_zero_or_pos i with rfl | hpos
    · -- Only the empty word leads to the first state.
      by_cases hnil : u = []
      · exact mem_beginnings.mpr (Or.inl hnil)
      · have hpos := pos_of_path_minimal hproper.closed_setFinal_exit hproper.size_setFinal_exit
          hnil hpath
        exact absurd hpos (Nat.lt_irrefl 0)
    · have hi := htrim.closed.lt_of_path htrim.pos hpath
      obtain ⟨v, hv, haccept⟩ := htrim.live i hi hpos
      have hboth := (hproper.accepts_automaton_iff (isWord_append.mpr ⟨hu, hv⟩)).mp
        (Accepts.of_path hpath haccept)
      exact mem_beginnings.mpr (Or.inr ⟨v, hboth⟩)
  · intro hu
    rcases mem_beginnings.mp hu with rfl | ⟨v, hboth⟩
    · exact ⟨0, Path.nil 0⟩
    · have hword := hproper.isWord_of_mem_matched hboth
      obtain ⟨i, hpath, -⟩ :=
        Graph.accepts_append_iff.mp ((hproper.accepts_automaton_iff hword).mpr hboth)
      exact ⟨i, hpath⟩

/-- The state that a word leads to is final when the word leads through the fragment. -/
theorem isFinal_automaton_iff (hpath : f.automaton.Path 0 u i) :
    f.automaton.isFinal i = true ↔ u ∈ f.matched := by
  have hu := hproper.inAlphabet_automaton.isWord_of_path hpath
  rw [← hproper.accepts_automaton_iff hu]
  constructor
  · intro hfinal
    exact ⟨i, hpath, hfinal⟩
  · rintro ⟨j, hpath', hfinal⟩
    rwa [hproper.trim_automaton.deterministic.eq_of_path hpath hpath']

/-- The state that a word leads to has an edge for a character when the word with that
character is a beginning. -/
theorem exists_edge_automaton_iff (hpath : f.automaton.Path 0 u i) (hc : c ∈ CodeSet.chars) :
    (∃ e ∈ f.automaton.edges i, c ∈ e.label) ↔ u ++ [c] ∈ beginnings f.matched := by
  have hdet := hproper.trim_automaton.deterministic
  rw [← hproper.exists_path_automaton_iff]
  constructor
  · rintro ⟨e, he, hce⟩
    have hne : c ≠ Code.silent := by
      rintro rfl
      exact absurd hc (by decide)
    exact ⟨e.target, hpath.append (Path.of_edge he hce hne)⟩
  · rintro ⟨k, hboth⟩
    obtain ⟨j, hfirst, hsecond⟩ := hboth.exists_of_append
    obtain rfl := hdet.eq_of_path hpath hfirst
    obtain ⟨e, he, hce, -⟩ := hdet.path_cons_iff.mp hsecond
    exact ⟨e, he, hce⟩

/-- The labels of the automaton hold characters only. -/
theorem mem_chars_of_mem_automaton {e : Edge} (he : e ∈ f.automaton.edges i) (hc : c ∈ e.label) :
    c ∈ CodeSet.chars := by
  have htrim := hproper.trim_automaton
  obtain ⟨u, hu, hpath⟩ := htrim.reached i (lt_size_of_mem_edges he)
  have hne := htrim.deterministic.ne_silent he hc
  -- Some word of the language takes the edge on that code.
  have hlonger := hpath.append (Path.of_edge he hc hne)
  rcases mem_beginnings.mp (hproper.exists_path_automaton_iff.mp ⟨_, hlonger⟩) with hnil | ⟨v, hv⟩
  · simp at hnil
  · refine hproper.mem_chars_of_mem_matched hv c ?_
    simp

/-! ## The result -/

/-- The automaton turned round is a fragment. -/
theorem turnedRound : f.turnedRound.Proper where
  plain := plain_turnedRound hproper.trim_automaton.closed
    fun _ _ he _ hc => hproper.mem_chars_of_mem_automaton he hc
  entry_lt := by
    rw [Fragment.turnedRound, size_turnedRound]
    exact Nat.succ_pos _
  exit_lt := by
    rw [Fragment.turnedRound, size_turnedRound]
    exact Nat.lt_succ_self _
  entry_ne_exit := Nat.ne_of_lt hproper.trim_automaton.pos
  edges_exit := edges_turnedRound_size

/-- The words that lead through it are those that leave the language. -/
theorem matched_turnedRound : f.turnedRound.matched = leavings f.matched := by
  have htrim := hproper.trim_automaton
  ext w
  have hpaths : w ∈ f.turnedRound.matched ↔ _ :=
    path_turnedRound_size_iff (w := w) htrim.closed htrim.pos
  rw [hpaths, mem_leavings]
  constructor
  · rintro ⟨u, j, hpath, -, hfinal, hlast⟩
    have hbegin := hproper.exists_path_automaton_iff.mp ⟨j, hpath⟩
    have hnot : u ∉ f.matched := by
      intro hmem
      rw [(hproper.isFinal_automaton_iff hpath).mpr hmem] at hfinal
      cases hfinal
    rcases hlast with rfl | ⟨c, rfl, hc, hnone⟩
    · exact Or.inl ⟨hbegin, hnot⟩
    · refine Or.inr ⟨u, c, rfl, ⟨hbegin, hnot⟩, hc, fun hlonger => ?_⟩
      obtain ⟨e, he, hce⟩ := (hproper.exists_edge_automaton_iff hpath hc).mpr hlonger
      exact hnone e he hce
  · rintro (⟨hbegin, hnot⟩ | ⟨u, c, rfl, ⟨hbegin, hnot⟩, hc, hend⟩)
    · obtain ⟨j, hpath⟩ := hproper.exists_path_automaton_iff.mpr hbegin
      refine ⟨w, j, hpath, htrim.closed.lt_of_path htrim.pos hpath, ?_, Or.inl rfl⟩
      exact Bool.eq_false_iff.mpr (mt (hproper.isFinal_automaton_iff hpath).mp hnot)
    · obtain ⟨j, hpath⟩ := hproper.exists_path_automaton_iff.mpr hbegin
      refine ⟨u, j, hpath, htrim.closed.lt_of_path htrim.pos hpath, ?_,
        Or.inr ⟨c, rfl, hc, fun e he hce => ?_⟩⟩
      · exact Bool.eq_false_iff.mpr (mt (hproper.isFinal_automaton_iff hpath).mp hnot)
      · exact hend ((hproper.exists_edge_automaton_iff hpath hc).mp ⟨e, he, hce⟩)

/-- Nothing leads back to its entry. -/
theorem returned_turnedRound : f.turnedRound.returned = 1 := by
  have htrim := hproper.trim_automaton
  ext w
  have hpaths : w ∈ f.turnedRound.returned ↔ _ := path_turnedRound_iff (i := 0) (w := w) htrim.pos
  rw [hpaths, Language.mem_one]
  constructor
  · intro hpath
    by_contra hne
    have hpos := pos_of_path_minimal hproper.closed_setFinal_exit hproper.size_setFinal_exit
      hne hpath
    exact absurd hpos (Nat.lt_irrefl 0)
  · rintro rfl
    exact Path.nil 0

end Proper

end Fragment

/-- The prefix complement of a part, put behind the graph of the part. -/
theorem Glued.complement {g h : Graph} {a : Ends} {l r : Language Int} (hglued : Glued g h a l r) :
    Glued g ((h.prefixComplement a).spliceInto h).1 ((h.prefixComplement a).spliceInto h).2
      (leavings l) 1 := by
  have hinner := hglued.fragmentAt
  have hproper := Fragment.proper_of_glued hinner
  have hmatched : (h.fragmentAt a).matched = l := hinner.words_exit
  have hspliced := hproper.turnedRound.glued_spliceInto hglued.plain
  rw [hproper.matched_turnedRound, hproper.returned_turnedRound, hmatched] at hspliced
  exact behind hglued.toGrown hspliced

end Munch

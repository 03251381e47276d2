import Munch.Proofs.Automaton.Walk
import Munch.Proofs.Automaton.WellFormed

/-!
# Graphs that pass the check

The check of an automaton looks at one state after the other.  In a graph of the right
shape every edge gives a token or moves on characters, and the moves of a state do not
overlap because its labels do not, so the check finds nothing wrong.

Main results:

- Theorem {lit}`Row.isDisjoint_mergeSort`: moves that share no character pass, in the order
  of their characters.
- Theorem {lit}`Graph.WellFormed.exists_foldlM_addEdge`: the row of a state can be filled.
- Theorem {lit}`Graph.WellFormed.exists_ofGraph?_eq_ok`: a graph of the right shape is the
  automaton of a tokenizer.
-/

namespace Munch

/-! ## Moves that share no character -/

/-- Two moves share no character. -/
def Move.Apart (a b : Move) : Prop :=
  ∀ c, ¬((a.lower ≤ c ∧ c < a.upper) ∧ b.lower ≤ c ∧ c < b.upper)

theorem Move.Apart.symm {a b : Move} (hapart : a.Apart b) : b.Apart a :=
  fun c hc => hapart c hc.symm

namespace Row

theorem isDisjoint_of_pairwise {moves : List Move}
    (hmoves : moves.Pairwise fun a b => a.upper ≤ b.lower) : isDisjoint moves = true := by
  induction moves with
  | nil => rfl
  | cons a rest ih =>
    obtain ⟨hfirst, hrest⟩ := List.pairwise_cons.mp hmoves
    cases rest with
    | nil => rfl
    | cons b rest =>
      rw [isDisjoint, ih hrest, decide_eq_true (hfirst b List.mem_cons_self)]
      rfl

/-- Moves that share no character do not overlap in the order of their characters. -/
theorem isDisjoint_mergeSort {moves : List Move} (hlt : ∀ m ∈ moves, m.lower < m.upper)
    (hapart : moves.Pairwise Move.Apart) :
    isDisjoint (moves.mergeSort fun a b => decide (a.lower ≤ b.lower)) = true := by
  have hperm := List.mergeSort_perm moves fun a b => decide (a.lower ≤ b.lower)
  have hsorted : (moves.mergeSort fun a b => decide (a.lower ≤ b.lower)).Pairwise
      fun a b => decide (a.lower ≤ b.lower) = true := by
    refine List.pairwise_mergeSort (fun a b c hab hbc => ?_) (fun a b => ?_) moves
    · simp only [decide_eq_true_eq] at hab hbc ⊢
      exact Int.le_trans hab hbc
    · simp only [Bool.or_eq_true, decide_eq_true_eq]
      exact Int.le_total _ _
  have hapart' := (hperm.pairwise_iff Move.Apart.symm).mpr hapart
  refine isDisjoint_of_pairwise ((hsorted.and hapart').imp_of_mem fun {a b} _ hb hab => ?_)
  -- Otherwise both moves are on the first character of the second one.
  have hlower := of_decide_eq_true hab.1
  have hnot := hab.2 b.lower
  have hnonempty := hlt b (hperm.mem_iff.mp hb)
  omega

/-- The moves over an edge: none into a final state. -/
def movesOver (g : Graph) (e : Edge) : List Move :=
  if g.isFinal e.target then []
  else e.label.ranges.map fun r => ⟨r.1, r.2, e.target⟩

variable {g : Graph} {i : Nat} {e : Edge} {m : Move}

theorem mem_movesOver_iff :
    m ∈ movesOver g e ↔
      g.isFinal e.target = false ∧ ∃ r ∈ e.label.ranges, ⟨r.1, r.2, e.target⟩ = m := by
  unfold movesOver
  split
  · rename_i hfinal
    simp [hfinal]
  · rename_i hfinal
    simp only [Bool.not_eq_true] at hfinal
    simp [hfinal]

theorem movesOf_eq_ok_of_nonneg (hnonneg : ∀ r ∈ e.label.ranges, 0 ≤ r.1) :
    movesOf i e = .ok (e.label.ranges.map fun r => ⟨r.1, r.2, e.target⟩) := by
  refine mapM_eq_ok_iff.mpr (List.forall₂_map_right_iff.mpr (List.forall₂_same.mpr fun r hr => ?_))
  rw [if_neg (Int.not_lt.mpr (hnonneg r hr))]

end Row

/-! ## The check of a graph of the right shape -/

namespace Graph.WellFormed

variable {g : Graph} {count i : Nat} {e : Edge} {names : Array String}
  (hg : g.WellFormed count)
include hg

/-- The moves over the edges of a state share no character. -/
theorem pairwise_movesOver (i : Nat) :
    ((g.edges i).flatMap (Row.movesOver g)).Pairwise Move.Apart := by
  refine List.pairwise_flatMap.mpr ⟨fun e _ => ?_, (hg.disjoint i).imp fun hdisjoint m hm n hn => ?_⟩
  · unfold Row.movesOver
    split
    · exact List.Pairwise.nil
    · refine List.pairwise_map.mpr ((CodeSet.pairwise_pairUp e.label.increasing).imp fun hgap => ?_)
      rintro c ⟨⟨-, hupper⟩, hlower, -⟩
      simp only at hupper hlower
      omega
  · obtain ⟨-, r, hr, rfl⟩ := Row.mem_movesOver_iff.mp hm
    obtain ⟨-, t, ht, rfl⟩ := Row.mem_movesOver_iff.mp hn
    rintro c ⟨hcr, hct⟩
    exact hdisjoint c ⟨CodeSet.mem_iff_exists_range.mpr ⟨r, hr, hcr⟩,
      CodeSet.mem_iff_exists_range.mpr ⟨t, ht, hct⟩⟩

/-- An edge into a final state marks a token. -/
theorem exists_markedToken_eq_ok (hcount : (count : Int) ≤ maxTokenId + 1) (he : e ∈ g.edges i)
    (hfinal : g.isFinal e.target = true) : ∃ token, Row.markedToken count i e = .ok token := by
  obtain ⟨id, hid, hfirst⟩ := hg.exists_first?_eq_marker he hfinal
  have hmarker : Code.isMarker (Code.marker (id : Nat)) = true :=
    Code.isMarker_marker (Int.natCast_nonneg id) (by omega)
  have hbelow : ∀ c ∈ e.label, c < Code.silent := by
    intro c hc
    obtain ⟨k, -, rfl⟩ := hg.markers i e he hfinal c hc
    unfold Code.marker Code.silent
    omega
  have hbounds : (e.label.boundaries.any fun b => Code.silent < b) = false := by
    rw [List.any_eq_false]
    intro b hb
    have hle := CodeSet.le_of_mem_boundaries hbelow hb
    simpa using hle
  have hrange : (0 : Int) ≤ id ∧ (id : Int) < count := by omega
  refine ⟨id, ?_⟩
  simp [Row.markedToken, hfirst, hmarker, hbounds, hrange]

/-- One more edge adds its moves to the row of its state. -/
theorem exists_addEdge_eq_ok (hcount : (count : Int) ≤ maxTokenId + 1) (he : e ∈ g.edges i)
    (row : Row) :
    ∃ next, Row.addEdge g count i row e = .ok next ∧
      next.moves = row.moves ++ Row.movesOver g e := by
  have hlt : e.target < g.states.size := hg.closed i e he
  have hstate : g.state? e.target = some g.states[e.target] := Array.getElem?_eq_getElem hlt
  have hflag : g.isFinal e.target = g.states[e.target].isFinal := by
    rw [isFinal, Array.getElem?_eq_getElem hlt]
    rfl
  unfold Row.addEdge Row.movesOver
  rw [hstate]
  cases hfinal : g.isFinal e.target with
  | true =>
    obtain ⟨token, htoken⟩ := hg.exists_markedToken_eq_ok hcount he hfinal
    refine ⟨{ row with token := max row.token token }, ?_, (List.append_nil _).symm⟩
    simp only [← hflag, hfinal, if_true, htoken]
    rfl
  | false =>
    have hnonneg : ∀ r ∈ e.label.ranges, 0 ≤ r.1 := by
      intro r hr
      have hfirst := CodeSet.lt_of_mem_ranges hr
      have hmem : r.1 ∈ e.label :=
        CodeSet.mem_iff_exists_range.mpr ⟨r, hr, Int.le_refl _, hfirst⟩
      exact (CodeSet.mem_chars.mp (hg.chars i e he hfinal _ hmem)).1
    refine ⟨{ row with moves := row.moves ++ _ }, ?_, rfl⟩
    simp only [← hflag, hfinal, Bool.false_eq_true, if_false, Row.movesOf_eq_ok_of_nonneg hnonneg]
    rfl

/-- The row of a state can be filled, with the moves over its edges in order. -/
theorem exists_foldlM_addEdge (hcount : (count : Int) ≤ maxTokenId + 1) {es : List Edge}
    (hes : ∀ e ∈ es, e ∈ g.edges i) (row : Row) :
    ∃ last, es.foldlM (Row.addEdge g count i) row = .ok last ∧
      last.moves = row.moves ++ es.flatMap (Row.movesOver g) := by
  induction es generalizing row with
  | nil => exact ⟨row, rfl, (List.append_nil _).symm⟩
  | cons e es ih =>
    obtain ⟨he, hes⟩ := List.forall_mem_cons.mp hes
    obtain ⟨next, hnext, hmoves⟩ := hg.exists_addEdge_eq_ok hcount he row
    obtain ⟨last, hlast, hall⟩ := ih hes next
    refine ⟨last, bind_eq_ok_iff.mpr ⟨next, hnext, hlast⟩, ?_⟩
    rw [hall, hmoves, List.flatMap_cons, List.append_assoc]

theorem exists_ofState_eq_ok (hcount : (count : Int) ≤ maxTokenId + 1) (i : Nat) :
    ∃ row, Row.ofState g count i = .ok row := by
  obtain ⟨last, hlast, hmoves⟩ :=
    hg.exists_foldlM_addEdge hcount (fun _ he => he) (i := i) Row.empty
  have hall : last.moves = (g.edges i).flatMap (Row.movesOver g) := hmoves
  have hlt : ∀ m ∈ last.moves, m.lower < m.upper := by
    intro m hm
    rw [hall, List.mem_flatMap] at hm
    obtain ⟨e, -, hm⟩ := hm
    obtain ⟨-, r, hr, rfl⟩ := Row.mem_movesOver_iff.mp hm
    exact CodeSet.lt_of_mem_ranges hr
  have hdisjoint := Row.isDisjoint_mergeSort hlt (hall ▸ hg.pairwise_movesOver i)
  unfold Row.ofState
  rw [hlast]
  change ∃ row, (if Row.isDisjoint _ = true then _ else _) = Except.ok row
  rw [if_pos hdisjoint]
  exact ⟨_, rfl⟩

/-- A graph of the right shape is the automaton of a tokenizer. -/
theorem exists_ofGraph?_eq_ok (hsize : names.size = count)
    (hcount : (count : Int) ≤ maxTokenId + 1) : ∃ a, Automaton.ofGraph? g names = .ok a := by
  subst hsize
  have hpos : g.size ≠ 0 := Nat.pos_iff_ne_zero.mp hg.pos
  obtain ⟨rows, hrows⟩ : ∃ rows, g.rows names.size = .ok rows := by
    simp only [rows, if_neg hpos, hg.isFinal_start, Bool.false_eq_true, if_false]
    exact exists_mapM_eq_ok fun i _ => hg.exists_ofState_eq_ok hcount i
  unfold Automaton.ofGraph?
  split
  · exact ⟨_, rfl⟩
  · rename_i fault hfault
    rw [hrows] at hfault
    cases hfault

end Graph.WellFormed
end Munch

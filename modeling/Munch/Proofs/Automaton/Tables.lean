import Munch.Proofs.Automaton.Walk
import Munch.Proofs.Halving
import Munch.Tokenizer.Scan

/-!
# Tables of an automaton

What is kept beside a graph agrees with the graph, whatever graph was checked: a move can be
looked up by halving the list of moves of its state, it leads where the edges with its character
lead, and the token of a state is the largest one that is marked on its edges into final states.

Main results:

- Theorem {lit}`Row.lookup_eq_some_iff`: halving finds the only move on a code.
- Theorem {lit}`Automaton.lookup_eq_step`: looking up by halving is going through all moves.
- Theorem {lit}`Automaton.exists_name_of_accepting`: tokens that are recognized have names.
- Theorem {lit}`Automaton.tables_of_ofGraph?`: the tables of every graph that passes the checks.
-/

namespace Munch

namespace Row

variable {row : Row} {code : Int} {target : Nat}

/-- Among moves in order, those that begin no later than a code are the first ones. -/
theorem exists_partitionPoint_eq (hle : ∀ m ∈ row.moves, m.lower ≤ m.upper)
    (hmoves : row.moves.Pairwise fun a b => a.upper ≤ b.lower) (code : Int) :
    ∃ k ≤ row.moves.length,
      partitionPoint (fun m => decide (m.lower ≤ code)) row.moves.toArray = k ∧
        ∀ i m, row.moves[i]? = some m → (m.lower ≤ code ↔ i < k) := by
  have hfront : row.moves.Pairwise fun a b =>
      decide (b.lower ≤ code) = true → decide (a.lower ≤ code) = true := by
    refine hmoves.imp_of_mem fun {a b} ha _ hab hb => ?_
    have hlower := hle a ha
    simp only [decide_eq_true_eq] at hb ⊢
    omega
  refine ⟨_, ?_, partitionPoint_toArray hfront, fun i m hm => ?_⟩
  · exact List.countP_le_length
  · rw [← any_getElem?_iff_lt hfront i, hm, Option.any_some, decide_eq_true_eq]

/-- Among moves that do not overlap, the last one that begins no later than a code is the only one
that can be taken on it. -/
theorem lookup_eq_some_iff (hle : ∀ m ∈ row.moves, m.lower ≤ m.upper)
    (hmoves : row.moves.Pairwise fun a b => a.upper ≤ b.lower) :
    row.lookup code = some target ↔
      ∃ m ∈ row.moves, (m.lower ≤ code ∧ code < m.upper) ∧ m.target = target := by
  obtain ⟨k, hlength, hcount, hplace⟩ := exists_partitionPoint_eq hle hmoves code
  rw [lookup, hcount]
  constructor
  · intro hfound
    cases k with
    | zero => cases hfound
    | succ k =>
      obtain ⟨m, hm, htaken⟩ := Option.bind_eq_some_iff.mp hfound
      split at htaken
      · rename_i hupper
        exact ⟨m, List.mem_of_getElem? hm, ⟨(hplace k m hm).mpr (Nat.lt_succ_self k), hupper⟩,
          Option.some.inj htaken⟩
      · cases htaken
  · rintro ⟨m, hm, ⟨hlower, hupper⟩, rfl⟩
    obtain ⟨i, hi, hget⟩ := List.mem_iff_getElem.mp hm
    have hlt := (hplace i m (hget ▸ List.getElem?_eq_getElem hi)).mp hlower
    cases k with
    | zero => cases hlt
    | succ k =>
      have hk : k < row.moves.length := hlength
      have hlast := (hplace k _ (List.getElem?_eq_getElem hk)).mpr (Nat.lt_succ_self k)
      -- A move before the last one that begins in time ends before that one begins.
      obtain rfl : i = k := by
        by_contra hne
        have hgap := List.pairwise_iff_getElem.mp hmoves i k hi hk (by omega)
        rw [hget] at hgap
        omega
      change (row.moves[i]?).bind _ = some m.target
      rw [List.getElem?_eq_getElem hi, hget, Option.bind_some, if_pos hupper]

end Row

namespace Graph

/-- The tokens of the markers on the edges of a state into final states. -/
def markedTokens (g : Graph) (i : Nat) : Set Int :=
  {id | ∃ e ∈ g.edges i, g.isFinal e.target = true ∧
    ∃ code ∈ e.label, Code.isMarker code = true ∧ Code.tokenOf code = id}

end Graph

namespace Automaton

variable {a : Automaton} {i : Nat} {e : Edge} {id : Int}

/-! ## Moves -/

/-- No move of a state is empty. -/
theorem lower_lt_upper (a : Automaton) (i : Nat) : ∀ m ∈ (a.row i).moves, m.lower < m.upper := by
  intro m hm
  obtain ⟨e, -, -, r, hr, rfl⟩ := ((a.shows_row i).1.moves m).mp hm
  exact CodeSet.lt_of_mem_ranges hr

/-- Looking up by halving finds the move that is found by going through all of them. -/
theorem lookup_eq_step (a : Automaton) (i : Nat) (c : Char) : a.lookup i c = a.step i c := by
  have hdisjoint := (a.shows_row i).2
  have hle := fun m hm => Int.le_of_lt (a.lower_lt_upper i m hm)
  ext t
  rw [lookup, Row.lookup_eq_some_iff hle hdisjoint]
  simp only [step, Option.map_eq_some_iff, find?_move_eq_some_iff hdisjoint, and_assoc]

/-! ## Tokens -/

/-- The label of an edge into a final state holds nothing but markers, and the largest token that
is marked there has a name. -/
theorem markers_of_final (a : Automaton) (he : e ∈ a.graph.edges i)
    (hfinal : a.graph.isFinal e.target = true) :
    (∀ code ∈ e.label, Code.isMarker code = true) ∧
      ∃ token, Code.marker token ∈ e.label ∧ (0 ≤ token ∧ token < a.names.size) ∧
        ∀ code ∈ e.label, Code.tokenOf code ≤ token := by
  obtain ⟨token, htoken⟩ := (a.target_of_mem_edges he).2 hfinal
  obtain ⟨hfirst, hmarker, hbounds, hall⟩ := Row.markedToken_eq_ok htoken
  refine ⟨fun code hcode => ?_, token, CodeSet.mem_of_first? hfirst, hbounds, fun code hcode => ?_⟩
  · have hle := CodeSet.le_of_first? hfirst hcode
    have hleast := (of_decide_eq_true hmarker).1
    exact decide_eq_true ⟨Int.le_trans hleast hle, (hall code hcode).1⟩
  · exact (hall code hcode).2

theorem mem_markedTokens_iff (a : Automaton) : id ∈ a.graph.markedTokens i ↔ a.Marks i id := by
  constructor
  · rintro ⟨e, he, hfinal, code, hcode, -, rfl⟩
    exact ⟨e, he, hfinal, by rwa [Code.marker_tokenOf]⟩
  · rintro ⟨e, he, hfinal, hmem⟩
    exact ⟨e, he, hfinal, _, hmem, (a.markers_of_final he hfinal).1 _ hmem, Code.tokenOf_marker id⟩

/-- A state recognizes nothing exactly if it has no edge into a final state: every such edge marks
a token. -/
theorem accepting_eq_none_iff_isFinal :
    a.accepting i = none ↔ ∀ e ∈ a.graph.edges i, a.graph.isFinal e.target = false := by
  rw [accepting_eq_none_iff]
  constructor
  · intro hnone e he
    refine Bool.eq_false_iff.mpr fun hfinal => ?_
    obtain ⟨-, token, hmem, -⟩ := a.markers_of_final he hfinal
    exact hnone token ⟨e, he, hfinal, hmem⟩
  · rintro hnone id ⟨e, he, hfinal, -⟩
    rw [hnone e he] at hfinal
    cases hfinal

/-- Tokens that are recognized have names. -/
theorem exists_name_of_accepting (haccepting : a.accepting i = some id) :
    ∃ k, ∃ hk : k < a.names.size, id = (k : Nat) ∧ a.tokenName? id = some a.names[k] := by
  obtain ⟨⟨e, he, hfinal, hmem⟩, hlargest⟩ := accepting_eq_some haccepting
  obtain ⟨-, token, htoken, ⟨hpos, hlt⟩, hmost⟩ := a.markers_of_final he hfinal
  have hle := hmost _ hmem
  rw [Code.tokenOf_marker] at hle
  obtain rfl : id = token := Int.le_antisymm hle (hlargest token ⟨e, he, hfinal, htoken⟩)
  obtain ⟨k, rfl⟩ := Int.eq_ofNat_of_zero_le hpos
  have hk : k < a.names.size := Int.ofNat_lt.mp hlt
  refine ⟨k, hk, rfl, ?_⟩
  have hknown : (k : Int) ≠ unknownToken := by
    unfold unknownToken
    omega
  rw [tokenName?, if_neg hknown, if_neg (Int.not_lt.mpr hpos), Int.toNat_natCast,
    Array.getElem?_eq_getElem hk]

/-! ## Scans -/

theorem bestAt_eq_some {offset : Nat} {best : Option Match} {m : Match}
    (hbest : bestAt a i offset best = some m) : best = some m ∨ ∃ j, a.accepting j = some m.id := by
  unfold bestAt at hbest
  split at hbest
  · rename_i id haccepting
    cases hbest
    exact Or.inr ⟨i, haccepting⟩
  · exact Or.inl hbest

/-- A match that a scan reports was recognized in some state, or was there before. -/
theorem exists_accepting_of_scanFrom {offset : Nat} {best : Option Match} {input : List CharEvent}
    {m : Match} (hscan : scanFrom a i offset best input = .matched (some m)) :
    best = some m ∨ ∃ j, a.accepting j = some m.id := by
  fun_induction scanFrom a i offset best input with
  | case1 => exact bestAt_eq_some (ScanResult.matched.inj hscan)
  | case2 => cases hscan
  | case3 => cases hscan
  | case4 => exact bestAt_eq_some (ScanResult.matched.inj hscan)
  | case5 i offset best c rest next hstep ih =>
    rcases ih hscan with hfound | hfound
    · exact bestAt_eq_some hfound
    · exact Or.inr hfound

/-! ## Graphs that pass the checks -/

/-- The tables made for a graph that passes the checks agree with it.  A step, which can be looked
up by halving, leads to the only state that edges with the character lead to; the token of a state
is the largest one marked on its edges into final states; and every token that is recognized in a
state, or that a scan reports, has its name. -/
theorem tables_of_ofGraph? {g : Graph} {names : Array String} {a : Automaton}
    (h : ofGraph? g names = .ok a) :
    (∀ i c t, a.step i c = some t ↔ ∃ e ∈ g.edges i, e.target = t ∧ Code.ofChar c ∈ e.label) ∧
    (∀ i c, {t | ∃ e ∈ g.edges i, e.target = t ∧ Code.ofChar c ∈ e.label}.Subsingleton) ∧
    (∀ i c, a.lookup i c = a.step i c) ∧
    (∀ i id, a.accepting i = some id ↔ IsGreatest (g.markedTokens i) id) ∧
    (∀ i, a.accepting i = none ↔ ∀ e ∈ g.edges i, g.isFinal e.target = false) ∧
    (∀ i c t, a.step i c = some t → t < a.size) ∧
    (∀ i id, a.accepting i = some id →
      ∃ k, ∃ hk : k < names.size, id = (k : Nat) ∧ a.tokenName? id = some names[k]) ∧
    ∀ input m, scan a input = .matched (some m) →
      ∃ k, ∃ hk : k < names.size, m.id = (k : Nat) ∧ a.tokenName? m.id = some names[k] := by
  obtain ⟨rfl, rfl⟩ := eq_of_ofGraph?_eq_ok h
  have hedge : ∀ i c t, a.step i c = some t ↔
      ∃ e ∈ a.graph.edges i, e.target = t ∧ Code.ofChar c ∈ e.label := by
    intro i c t
    rw [step_eq_some_iff]
    simp only [and_comm]
  have htokens : ∀ i, a.graph.markedTokens i = {id | a.Marks i id} := fun i =>
    Set.ext fun id => a.mem_markedTokens_iff
  refine ⟨hedge, fun i c t ht u hu => ?_, a.lookup_eq_step, fun i id => ?_,
    fun i => accepting_eq_none_iff_isFinal, fun i c t hstep => ?_,
    fun i id => exists_name_of_accepting, fun input m hscan => ?_⟩
  · exact Option.some.inj (((hedge i c t).mpr ht).symm.trans ((hedge i c u).mpr hu))
  · rw [htokens, accepting_eq_some_iff]
  · obtain ⟨e, he, rfl, -⟩ := (hedge i c t).mp hstep
    exact (a.target_of_mem_edges he).1
  · rcases exists_accepting_of_scanFrom hscan with hnone | ⟨j, haccepting⟩
    · cases hnone
    · exact exists_name_of_accepting haccepting

/-- Two final states, an edge with two ranges of characters and one with two markers. -/
def severalFinal : Automaton where
  graph := ⟨#[
    ⟨false, [⟨⟨[97, 100, 120, 123], by decide, by decide⟩, 1⟩, ⟨CodeSet.single 100, 0⟩]⟩,
    ⟨false, [⟨⟨[-4, -3, -2, -1], by decide, by decide⟩, 2⟩, ⟨CodeSet.single (-3), 3⟩]⟩,
    State.bare true, State.bare true]⟩
  names := #["A", "B", "C"]
  rows := #[⟨[⟨97, 100, 1⟩, ⟨100, 101, 0⟩, ⟨120, 123, 1⟩], unknownToken⟩, ⟨[], 2⟩,
    Row.empty, Row.empty]
  rows_eq := by
    refine mapM_eq_ok_iff.mpr (.cons ?_ (.cons ?_ (.cons ?_ (.cons ?_ .nil))))
    · exact Row.ofState_of_foldlM ⟨[⟨97, 100, 1⟩, ⟨120, 123, 1⟩, ⟨100, 101, 0⟩], unknownToken⟩ rfl
        (by simp [List.mergeSort]) rfl
    · exact Row.ofState_of_foldlM ⟨[], 2⟩ rfl List.mergeSort_nil rfl
    · exact Row.ofState_of_foldlM Row.empty rfl List.mergeSort_nil rfl
    · exact Row.ofState_of_foldlM Row.empty rfl List.mergeSort_nil rfl

theorem tables_severalFinal :
    ofGraph? severalFinal.graph severalFinal.names = .ok severalFinal ∧
      severalFinal.step 0 'y' = some 1 ∧ severalFinal.lookup 0 'y' = some 1 ∧
        IsGreatest (severalFinal.graph.markedTokens 1) 2 ∧
          severalFinal.tokenName? 2 = some "C" := by
  have hgraph : ofGraph? severalFinal.graph severalFinal.names = .ok severalFinal :=
    severalFinal.ofGraph?_self
  obtain ⟨-, -, hlookup, htokens, -⟩ := tables_of_ofGraph? hgraph
  have hstep : severalFinal.step 0 'y' = some 1 := by decide
  exact ⟨hgraph, hstep, (hlookup 0 'y').trans hstep, (htokens 1 2).mp (by decide), by decide⟩

end Automaton
end Munch

import Munch.Automaton.Basic
import Munch.Proofs.Longest
import Munch.Proofs.Traversal

/-!
# Walks of an automaton

The rows of an automaton were checked when it was made, so they agree with the edges of
its graph: moves are the edges into states that are not final, and the token of a row is
the largest one marked on an edge into a final state.

Main results:

- Theorem {lit}`Automaton.step_eq_some_iff`: steps follow edges.
- Theorem {lit}`Automaton.accepting_eq_some_iff`: what a state recognizes is the largest
  token marked on its edges.
- Theorem {lit}`Automaton.accepts_marker_iff`: a text with a marker behind it is accepted
  if a walk on the text ends where the marker is.
-/

namespace Munch

/-! ## Moves that do not overlap -/

/-- Neighbouring moves in order do not share a character, so no two moves do. -/
theorem pairwise_of_isDisjoint {moves : List Move} (hle : ∀ m ∈ moves, m.lower ≤ m.upper)
    (hdisjoint : Row.isDisjoint moves = true) :
    moves.Pairwise fun a b => a.upper ≤ b.lower := by
  induction moves with
  | nil => exact List.Pairwise.nil
  | cons a rest ih =>
    cases rest with
    | nil => exact List.pairwise_singleton _ _
    | cons b rest =>
      simp only [Row.isDisjoint, Bool.and_eq_true, decide_eq_true_eq] at hdisjoint
      have htail := ih (fun m hm => hle m (List.mem_cons_of_mem a hm)) hdisjoint.2
      refine List.pairwise_cons.mpr ⟨fun m hm => ?_, htail⟩
      have hb := hle b (List.mem_cons_of_mem a List.mem_cons_self)
      rcases List.mem_cons.mp hm with rfl | hm
      · exact hdisjoint.1
      · have hm := (List.pairwise_cons.mp htail).1 m hm
        omega

/-- Looking for a move on a code finds the one that there is. -/
theorem find?_move_eq_some_iff {moves : List Move} {code : Int}
    (hmoves : moves.Pairwise fun a b => a.upper ≤ b.lower) {m : Move} :
    moves.find? (fun m => decide (m.lower ≤ code ∧ code < m.upper)) = some m ↔
      m ∈ moves ∧ m.lower ≤ code ∧ code < m.upper := by
  induction moves with
  | nil => simp
  | cons a rest ih =>
    obtain ⟨hfirst, hrest⟩ := List.pairwise_cons.mp hmoves
    rw [List.find?_cons]
    by_cases ha : a.lower ≤ code ∧ code < a.upper
    · rw [decide_eq_true ha]
      simp only [Option.some.injEq]
      constructor
      · rintro rfl
        exact ⟨List.mem_cons_self, ha⟩
      · rintro ⟨hm, hcode⟩
        rcases List.mem_cons.mp hm with rfl | hm
        · rfl
        · have hle := hfirst m hm
          omega
    · rw [decide_eq_false ha]
      simp only
      rw [ih hrest, List.mem_cons]
      constructor
      · rintro ⟨hm, hcode⟩
        exact ⟨Or.inr hm, hcode⟩
      · rintro ⟨rfl | hm, hcode⟩
        · exact absurd hcode ha
        · exact ⟨hm, hcode⟩

namespace Row

/-! ## Rows and edges -/

/-- A row shows some edges of a graph: a move for every range of a label that leads to a
state that is not final, and the largest token marked on the others. -/
structure Shows (g : Graph) (es : List Edge) (row : Row) : Prop where
  moves : ∀ m, m ∈ row.moves ↔
    ∃ e ∈ es, g.isFinal e.target = false ∧ ∃ r ∈ e.label.ranges, m = ⟨r.1, r.2, e.target⟩
  nonneg : ∀ e ∈ es, g.isFinal e.target = false → ∀ c ∈ e.label, 0 ≤ c
  markers : ∀ e ∈ es, g.isFinal e.target = true → ∀ c ∈ e.label, c < Code.silent
  largest : ∀ e ∈ es, g.isFinal e.target = true → ∀ c ∈ e.label, Code.tokenOf c ≤ row.token
  token : row.token = unknownToken ∨ 0 ≤ row.token ∧
    ∃ e ∈ es, g.isFinal e.target = true ∧ Code.marker row.token ∈ e.label

variable {g : Graph} {count i : Nat} {row next : Row} {e : Edge} {es done : List Edge}

theorem shows_empty (g : Graph) : Shows g [] empty where
  moves m := by simp [empty]
  nonneg e he := by cases he
  markers e he := by cases he
  largest e he := by cases he
  token := Or.inl rfl

/-- The moves of an edge are the ranges of its label, which hold characters only. -/
theorem movesOf_eq_ok {moves : List Move} (h : movesOf i e = .ok moves) :
    moves = (e.label.ranges.map fun r => ⟨r.1, r.2, e.target⟩) ∧ ∀ r ∈ e.label.ranges, 0 ≤ r.1 := by
  have hall := mapM_eq_ok_iff.mp h
  clear h
  generalize e.label.ranges = ranges at hall
  induction hall with
  | nil =>
    refine ⟨rfl, fun r hr => ?_⟩
    cases hr
  | @cons r m ranges moves hr _ ih =>
    obtain ⟨rfl, hrest⟩ := ih
    split at hr
    · cases hr
    · rename_i hlow
      cases hr
      exact ⟨rfl, List.forall_mem_cons.mpr ⟨Int.not_lt.mp hlow, hrest⟩⟩

/-- The token of an edge is that of its first code.  The label holds nothing but markers, and
no larger one. -/
theorem markedToken_eq_ok {token : Int} (h : markedToken count i e = .ok token) :
    e.label.first? = some (Code.marker token) ∧ Code.isMarker (Code.marker token) = true ∧
      (0 ≤ token ∧ token < count) ∧ ∀ c ∈ e.label, c < Code.silent ∧ Code.tokenOf c ≤ token := by
  unfold markedToken at h
  split at h
  · cases h
  · rename_i code hfirst
    split at h
    · cases h
    · rename_i hmarker
      split at h
      · cases h
      · rename_i hbounds
        simp only at h
        split at h
        · rename_i hrange
          cases h
          rw [Code.marker_tokenOf]
          refine ⟨hfirst, by simpa using hmarker, hrange, fun c hc => ⟨?_, ?_⟩⟩
          · obtain ⟨b, hb, hlt⟩ := CodeSet.exists_boundary_of_mem hc
            have hle : ¬Code.silent < b := by
              intro hsilent
              exact hbounds (List.any_eq_true.mpr ⟨b, hb, decide_eq_true hsilent⟩)
            omega
          · have hle := CodeSet.le_of_first? hfirst hc
            unfold Code.tokenOf
            omega
        · cases h

/-- An edge into a final state is shown by a larger token. -/
theorem Shows.addMarkers {token : Int} (hshows : Shows g done row)
    (hfinal : g.isFinal e.target = true)
    (htoken : 0 ≤ token ∧ Code.marker token ∈ e.label ∧
      ∀ c ∈ e.label, c < Code.silent ∧ Code.tokenOf c ≤ token) :
    Shows g (done ++ [e]) { row with token := max row.token token } := by
  obtain ⟨hpos, hmem, hall⟩ := htoken
  refine
    { moves := fun m => ?_
      nonneg := List.forall_mem_append.mpr ⟨hshows.nonneg, ?_⟩
      markers := List.forall_mem_append.mpr ⟨hshows.markers, ?_⟩
      largest := List.forall_mem_append.mpr ⟨fun f hf hfin c hc => ?_, ?_⟩
      token := Or.inr ⟨?_, ?_⟩ }
  · rw [hshows.moves]
    simp [List.mem_append, or_and_right, exists_or, hfinal]
  · intro f hf hfin
    rw [List.mem_singleton.mp hf, hfinal] at hfin
    cases hfin
  · intro f hf _ c hc
    rw [List.mem_singleton.mp hf] at hc
    exact (hall c hc).1
  · exact Int.le_trans (hshows.largest f hf hfin c hc) (Int.le_max_left _ _)
  · intro f hf _ c hc
    rw [List.mem_singleton.mp hf] at hc
    exact Int.le_trans (hall c hc).2 (Int.le_max_right _ _)
  · exact Int.le_trans hpos (Int.le_max_right _ _)
  · change ∃ f ∈ done ++ [e], g.isFinal f.target = true ∧
      Code.marker (max row.token token) ∈ f.label
    rcases Int.le_total row.token token with hle | hle
    · rw [Int.max_eq_right hle]
      exact ⟨e, List.mem_append_right _ (List.mem_singleton_self e), hfinal, hmem⟩
    · rw [Int.max_eq_left hle]
      rcases hshows.token with hunknown | ⟨-, f, hf, hfin, hmarker⟩
      · rw [hunknown] at hle
        exact absurd (Int.le_trans hpos hle) (by decide)
      · exact ⟨f, List.mem_append_left _ hf, hfin, hmarker⟩

/-- An edge into another state is shown by its moves. -/
theorem Shows.addMoves (hshows : Shows g done row) (hfinal : g.isFinal e.target = false)
    (hnonneg : ∀ r ∈ e.label.ranges, 0 ≤ r.1) :
    Shows g (done ++ [e])
      { row with moves := row.moves ++ e.label.ranges.map fun r => ⟨r.1, r.2, e.target⟩ } := by
  refine
    { moves := fun m => ?_
      nonneg := List.forall_mem_append.mpr ⟨hshows.nonneg, ?_⟩
      markers := List.forall_mem_append.mpr ⟨hshows.markers, ?_⟩
      largest := List.forall_mem_append.mpr ⟨hshows.largest, ?_⟩
      token := ?_ }
  · change m ∈ row.moves ++ _ ↔ _
    have hnew : (m ∈ e.label.ranges.map fun r => (⟨r.1, r.2, e.target⟩ : Move)) ↔
        ∃ r ∈ e.label.ranges, m = ⟨r.1, r.2, e.target⟩ := by
      rw [List.mem_map]
      exact exists_congr fun r => and_congr_right fun _ => eq_comm
    rw [List.mem_append, hshows.moves, hnew]
    simp [List.mem_append, or_and_right, exists_or, hfinal]
  · intro f hf _ c hc
    rw [List.mem_singleton.mp hf] at hc
    obtain ⟨r, hr, hle, -⟩ := CodeSet.mem_iff_exists_range.mp hc
    exact Int.le_trans (hnonneg r hr) hle
  · intro f hf hfin
    rw [List.mem_singleton.mp hf, hfinal] at hfin
    cases hfin
  · intro f hf hfin
    rw [List.mem_singleton.mp hf, hfinal] at hfin
    cases hfin
  · rcases hshows.token with hunknown | ⟨hpos, f, hf, hfin, hmarker⟩
    · exact Or.inl hunknown
    · exact Or.inr ⟨hpos, f, List.mem_append_left _ hf, hfin, hmarker⟩

/-- One more edge is shown after adding it. -/
theorem Shows.addEdge (hshows : Shows g done row) (h : Row.addEdge g count i row e = .ok next) :
    Shows g (done ++ [e]) next := by
  unfold Row.addEdge at h
  split at h
  · cases h
  · rename_i target htarget
    have hfinal : g.isFinal e.target = target.isFinal := by
      rw [Graph.state?] at htarget
      rw [Graph.isFinal, htarget]
      rfl
    split at h
    · rename_i htrue
      obtain ⟨token, htoken, hnext⟩ := bind_eq_ok_iff.mp h
      cases hnext
      obtain ⟨hfirst, -, ⟨hpos, -⟩, hall⟩ := markedToken_eq_ok htoken
      exact hshows.addMarkers (hfinal.trans htrue) ⟨hpos, CodeSet.mem_of_first? hfirst, hall⟩
    · rename_i hfalse
      obtain ⟨moves, hmoves, hnext⟩ := bind_eq_ok_iff.mp h
      cases hnext
      obtain ⟨rfl, hnonneg⟩ := movesOf_eq_ok hmoves
      exact hshows.addMoves (hfinal.trans (Bool.eq_false_iff.mpr hfalse)) hnonneg

/-- An edge that is added has a target, and a marker if that is final. -/
theorem target_of_addEdge (h : addEdge g count i row e = .ok next) :
    e.target < g.size ∧
      (g.isFinal e.target = true → ∃ token, markedToken count i e = .ok token) := by
  unfold addEdge at h
  split at h
  · cases h
  · rename_i target htarget
    refine ⟨(Array.getElem?_eq_some_iff.mp htarget).1, fun hfinal => ?_⟩
    have hflag : target.isFinal = true := by
      rw [Graph.isFinal] at hfinal
      rw [Graph.state?] at htarget
      rw [htarget] at hfinal
      exact hfinal
    rw [if_pos hflag] at h
    obtain ⟨token, htoken, -⟩ := bind_eq_ok_iff.mp h
    exact ⟨token, htoken⟩

/-- Adding edges one after the other shows all of them. -/
theorem Shows.foldlM (hshows : Shows g done row)
    (h : es.foldlM (Row.addEdge g count i) row = .ok next) : Shows g (done ++ es) next := by
  induction es generalizing done row with
  | nil =>
    cases h
    rw [List.append_nil]
    exact hshows
  | cons e es ih =>
    rw [List.foldlM_cons] at h
    obtain ⟨mid, hmid, hrest⟩ := bind_eq_ok_iff.mp h
    have hall := ih (hshows.addEdge hmid) hrest
    rwa [List.append_assoc, List.singleton_append] at hall

/-- A state has the row that its edges make, with the moves of that row in order. -/
theorem ofState_of_foldlM (found : Row) {moves : List Move}
    (hfound : (g.edges i).foldlM (Row.addEdge g count i) empty = .ok found)
    (hmoves : found.moves.mergeSort (fun a b => decide (a.lower ≤ b.lower)) = moves)
    (hdisjoint : isDisjoint moves = true) :
    ofState g count i = .ok { found with moves := moves } := by
  refine bind_eq_ok_iff.mpr ⟨found, hfound, ?_⟩
  simp only [hmoves, hdisjoint, if_true]
  rfl

/-- The row of a state shows its edges, with moves that do not overlap. -/
theorem ofState_eq_ok (h : ofState g count i = .ok row) :
    Shows g (g.edges i) row ∧ row.moves.Pairwise fun a b => a.upper ≤ b.lower := by
  obtain ⟨found, hfound, hrow⟩ := bind_eq_ok_iff.mp h
  have hshows := (shows_empty g).foldlM hfound
  rw [List.nil_append] at hshows
  simp only at hrow
  split at hrow
  · rename_i hdisjoint
    cases hrow
    have hsorted : Shows g (g.edges i)
        { found with moves := found.moves.mergeSort fun a b => decide (a.lower ≤ b.lower) } :=
      { hshows with
        moves := fun m => by
          change m ∈ List.mergeSort _ _ ↔ _
          rw [List.mem_mergeSort, hshows.moves] }
    refine ⟨hsorted, pairwise_of_isDisjoint (fun m hm => ?_) hdisjoint⟩
    obtain ⟨e, -, -, r, hr, rfl⟩ := (hsorted.moves m).mp hm
    exact Int.le_of_lt (CodeSet.lt_of_mem_ranges hr)
  · cases hrow

end Row

namespace Automaton

variable {a : Automaton} {i j : Nat} {c : Char} {e : Edge} {id : Int} {s : List Char}

/-- Checking a graph changes neither the graph nor the names. -/
theorem eq_of_ofGraph?_eq_ok {g : Graph} {names : Array String} (h : ofGraph? g names = .ok a) :
    a.graph = g ∧ a.names = names := by
  unfold ofGraph? at h
  split at h
  · cases h
    exact ⟨rfl, rfl⟩
  · cases h

/-- The maker of automata gives the automaton back. -/
theorem ofGraph?_self (a : Automaton) : ofGraph? a.graph a.names = .ok a := by
  unfold ofGraph?
  split
  · rename_i rows hrows
    have heq : rows = a.rows.toList := Except.ok.inj (hrows.symm.trans a.rows_eq)
    subst heq
    rfl
  · rename_i fault hfault
    rw [a.rows_eq] at hfault
    cases hfault

/-- The start is not final, and every state has a row that was checked. -/
theorem rows_spec (a : Automaton) :
    0 < a.graph.size ∧ a.graph.isFinal 0 = false ∧
      List.Forall₂ (fun i row => Row.ofState a.graph a.names.size i = .ok row)
        (List.range a.graph.size) a.rows.toList := by
  have hrows := a.rows_eq
  unfold Graph.rows at hrows
  split at hrows
  · cases hrows
  · rename_i hsize
    split at hrows
    · cases hrows
    · rename_i hfinal
      exact ⟨Nat.pos_of_ne_zero hsize, Bool.eq_false_iff.mpr hfinal, mapM_eq_ok_iff.mp hrows⟩

/-- Every state has a row that shows its edges, with moves that do not overlap. -/
theorem shows_row (a : Automaton) (i : Nat) :
    Row.Shows a.graph (a.graph.edges i) (a.row i) ∧
      (a.row i).moves.Pairwise fun a b => a.upper ≤ b.lower := by
  obtain ⟨-, -, hall⟩ := a.rows_spec
  obtain ⟨hlength, hget⟩ := List.forall₂_iff_get.mp hall
  rw [List.length_range, Array.length_toList] at hlength
  by_cases hi : i < a.graph.size
  · have hi' : i < a.rows.size := hlength ▸ hi
    have hrow := hget i (by rwa [List.length_range]) (by rwa [Array.length_toList])
    have heq : a.row i = a.rows[i] := by
      rw [row, Array.getElem?_eq_getElem hi']
      rfl
    rw [heq]
    simp only [List.get_eq_getElem, List.getElem_range, Array.getElem_toList] at hrow
    exact Row.ofState_eq_ok hrow
  · have hnone : a.rows[i]? = none := Array.getElem?_eq_none (hlength ▸ Nat.not_lt.mp hi)
    have heq : a.row i = Row.empty := by
      rw [row, hnone]
      rfl
    rw [heq, Graph.edges_eq_nil_of_size_le (Nat.not_lt.mp hi)]
    exact ⟨Row.shows_empty _, List.Pairwise.nil⟩

/-- Every edge of an automaton was added to the row of its state. -/
theorem target_of_mem_edges (a : Automaton) (he : e ∈ a.graph.edges i) :
    e.target < a.graph.size ∧ (a.graph.isFinal e.target = true →
      ∃ token, Row.markedToken a.names.size i e = .ok token) := by
  obtain ⟨-, -, hall⟩ := a.rows_spec
  obtain ⟨hlength, hget⟩ := List.forall₂_iff_get.mp hall
  have hi := Graph.lt_size_of_mem_edges he
  rw [List.length_range] at hlength
  have hrow := hget i (by rwa [List.length_range]) (hlength ▸ hi)
  rw [List.get_eq_getElem, List.getElem_range] at hrow
  obtain ⟨last, hlast, -⟩ := bind_eq_ok_iff.mp hrow
  obtain ⟨row, next, hnext⟩ := exists_step_of_foldlM hlast e he
  exact Row.target_of_addEdge hnext

/-! ## Steps -/

/-- No edge is taken without input. -/
theorem silent_not_mem (a : Automaton) {e : Edge} (he : e ∈ a.graph.edges i) :
    Code.silent ∉ e.label := by
  intro hsilent
  obtain ⟨hshows, -⟩ := a.shows_row i
  cases hfinal : a.graph.isFinal e.target with
  | false => exact absurd (hshows.nonneg e he hfinal _ hsilent) (by decide)
  | true => exact Int.lt_irrefl _ (hshows.markers e he hfinal _ hsilent)

/-- A character code leads to states that are not final. -/
theorem isFinal_eq_false_of_mem_chars (a : Automaton) {e : Edge} (he : e ∈ a.graph.edges i)
    {code : Int} (hcode : code ∈ CodeSet.chars) (hmem : code ∈ e.label) :
    a.graph.isFinal e.target = false := by
  refine Bool.eq_false_iff.mpr fun hfinal => ?_
  have hlt := (a.shows_row i).1.markers e he hfinal code hmem
  have hpos := (CodeSet.mem_chars.mp hcode).1
  exact absurd (Int.lt_of_le_of_lt hpos hlt) (by decide)

/-- Steps follow edges. -/
theorem step_eq_some_iff :
    a.step i c = some j ↔ ∃ e ∈ a.graph.edges i, Code.ofChar c ∈ e.label ∧ e.target = j := by
  obtain ⟨hshows, hdisjoint⟩ := a.shows_row i
  unfold step
  simp only [Option.map_eq_some_iff, find?_move_eq_some_iff hdisjoint]
  constructor
  · rintro ⟨m, ⟨hm, hcode⟩, rfl⟩
    obtain ⟨e, he, -, r, hr, rfl⟩ := (hshows.moves m).mp hm
    exact ⟨e, he, CodeSet.mem_iff_exists_range.mpr ⟨r, hr, hcode⟩, rfl⟩
  · rintro ⟨e, he, hmem, rfl⟩
    obtain ⟨r, hr, hcode⟩ := CodeSet.mem_iff_exists_range.mp hmem
    have hfinal := a.isFinal_eq_false_of_mem_chars he (Code.ofChar_mem_chars c) hmem
    exact ⟨⟨r.1, r.2, e.target⟩, ⟨(hshows.moves _).mpr ⟨e, he, hfinal, r, hr, rfl⟩, hcode⟩, rfl⟩

/-! ## Tokens -/

/-- The state has an edge into a final state that marks the token. -/
def Marks (a : Automaton) (i : Nat) (id : Int) : Prop :=
  ∃ e ∈ a.graph.edges i, a.graph.isFinal e.target = true ∧ Code.marker id ∈ e.label

/-- A state recognizes nothing if nothing is marked there. -/
theorem accepting_eq_none_iff : a.accepting i = none ↔ ∀ id, ¬a.Marks i id := by
  obtain ⟨hshows, -⟩ := a.shows_row i
  unfold accepting
  constructor
  · intro hnone id hmarks
    obtain ⟨e, he, hfinal, hmem⟩ := hmarks
    have hlt := hshows.markers e he hfinal _ hmem
    have hle := hshows.largest e he hfinal _ hmem
    rw [Code.tokenOf_marker] at hle
    simp only [ite_eq_left_iff, reduceCtorEq, imp_false, not_not] at hnone
    rw [hnone] at hle
    unfold Code.marker Code.silent at hlt
    unfold unknownToken at hle
    omega
  · intro hnone
    rcases hshows.token with hunknown | ⟨-, hmarks⟩
    · rw [if_pos hunknown]
    · exact absurd hmarks (hnone _)

/-- What a state recognizes is the largest token marked there. -/
theorem accepting_eq_some (h : a.accepting i = some id) :
    a.Marks i id ∧ ∀ other, a.Marks i other → other ≤ id := by
  obtain ⟨hshows, -⟩ := a.shows_row i
  simp only [accepting, Option.ite_none_left_eq_some, Option.some.injEq] at h
  obtain ⟨hknown, rfl⟩ := h
  refine ⟨(hshows.token.resolve_left hknown).2, ?_⟩
  rintro other ⟨e, he, hfinal, hmem⟩
  have hle := hshows.largest e he hfinal _ hmem
  rwa [Code.tokenOf_marker] at hle

/-- What a state recognizes is the largest token marked there, and only that. -/
theorem accepting_eq_some_iff : a.accepting i = some id ↔ IsGreatest {k | a.Marks i k} id := by
  constructor
  · intro haccepting
    obtain ⟨hmarks, hle⟩ := accepting_eq_some haccepting
    exact ⟨hmarks, fun k hk => hle k hk⟩
  · intro hgreatest
    cases haccepting : a.accepting i with
    | none => exact absurd hgreatest.1 (accepting_eq_none_iff.mp haccepting id)
    | some other =>
      obtain ⟨hmarks, hle⟩ := accepting_eq_some haccepting
      have hother : IsGreatest {k | a.Marks i k} other := ⟨hmarks, fun k hk => hle k hk⟩
      rw [hother.unique hgreatest]

/-! ## Walks -/

/-- The state after reading a text. -/
def walk (a : Automaton) (i : Nat) : List Char → Option Nat
  | [] => some i
  | c :: s => (a.step i c).bind fun j => a.walk j s

@[simp]
theorem walk_nil : a.walk i [] = some i :=
  rfl

@[simp]
theorem walk_cons : a.walk i (c :: s) = (a.step i c).bind fun j => a.walk j s :=
  rfl

/-- The token recognized for a whole text. -/
def recognized? (a : Automaton) (s : List Char) : Option Int :=
  (a.walk a.start s).bind a.accepting

/-- Without silent edges the first code of a word is read on an edge of the state. -/
theorem accepts_cons_iff {code : Int} {w : List Int} :
    a.graph.Accepts i (code :: w) ↔
      ∃ e ∈ a.graph.edges i, code ∈ e.label ∧ a.graph.Accepts e.target w := by
  constructor
  · rintro ⟨k, hpath, hfinal⟩
    cases hpath with
    | silent he hsilent => exact absurd hsilent (a.silent_not_mem he)
    | read he hmem _ hrest => exact ⟨_, he, hmem, k, hrest, hfinal⟩
  · rintro ⟨e, he, hmem, k, hrest, hfinal⟩
    have hcode : code ≠ Code.silent := by
      rintro rfl
      exact a.silent_not_mem he hmem
    exact ⟨k, Graph.Path.read he hmem hcode hrest, hfinal⟩

theorem accepts_nil_iff : a.graph.Accepts i [] ↔ a.graph.isFinal i = true := by
  constructor
  · rintro ⟨k, hpath, hfinal⟩
    cases hpath with
    | nil => exact hfinal
    | silent he hsilent => exact absurd hsilent (a.silent_not_mem he)
  · intro hfinal
    exact ⟨i, Graph.Path.nil i, hfinal⟩

/-- A text with a marker behind it is accepted if a walk on the text ends where the marker
is. -/
theorem accepts_marker_iff :
    a.graph.Accepts i (codes s ++ [Code.marker id]) ↔ ∃ j, a.walk i s = some j ∧ a.Marks j id := by
  induction s generalizing i with
  | nil =>
    rw [codes_nil, List.nil_append, accepts_cons_iff]
    simp only [accepts_nil_iff, walk_nil, Option.some.injEq, exists_eq_left', Marks, and_comm]
  | cons c s ih =>
    rw [codes_cons, List.cons_append, accepts_cons_iff]
    simp only [walk_cons, Option.bind_eq_some_iff, step_eq_some_iff, ih]
    constructor
    · rintro ⟨e, he, hmem, j, hwalk, hmarks⟩
      exact ⟨j, ⟨e.target, ⟨e, he, hmem, rfl⟩, hwalk⟩, hmarks⟩
    · rintro ⟨j, ⟨k, ⟨e, he, hmem, rfl⟩, hwalk⟩, hmarks⟩
      exact ⟨e, he, hmem, j, hwalk, hmarks⟩

end Automaton
end Munch

import Mathlib.Order.Bounds.Basic
import Munch.Compile
import Munch.Proofs.Graph.Canonical

/-!
# The shape of automata of tokenizers

In the graph of a tokenizer markers lead into a single final state, which leads nowhere,
and everything else reads characters.  This shape follows from the language alone: it is
that of every minimal automaton whose words are texts with one marker behind them.

Main results:

- Theorem {lit}`Graph.Standard.wellFormed` and theorem {lit}`Graph.WellFormed.endsInMarkers`:
  the shape follows from the language, and the language from the shape.
- Theorem {lit}`Graph.WellFormed.emptyMatch?_eq_some_iff`: the token that the start
  recognizes is the largest one accepted there.
- Theorem {lit}`Graph.WellFormed.unrecognized?_eq_some_iff`: the first token without a
  marker is the first one that no text is accepted for.
-/

namespace Munch

/-! ## Words with markers behind them -/

theorem Code.marker_not_mem_chars {id : Nat} : marker id ∉ CodeSet.chars := by
  rw [CodeSet.mem_chars]
  unfold marker
  omega

theorem Code.marker_injective : Function.Injective marker := by
  intro a b hab
  rw [← tokenOf_marker a, hab, tokenOf_marker]

/-- What ends a word with one letter behind it ends in that letter. -/
theorem exists_eq_concat_of_append_eq {u v w : List Int} {c : Int} (h : w ++ v = u ++ [c])
    (hv : v ≠ []) : ∃ v', v = v' ++ [c] ∧ u = w ++ v' := by
  rcases List.eq_nil_or_concat v with rfl | ⟨v', d, rfl⟩
  · exact absurd rfl hv
  · rw [List.concat_eq_append, ← List.append_assoc] at h
    obtain ⟨hfirst, hlast⟩ := List.append_inj' h rfl
    obtain rfl := List.singleton_inj.mp hlast
    exact ⟨v', List.concat_eq_append .., hfirst.symm⟩

namespace Graph

/-- Every word that is accepted consists of characters with the marker of one of the first
`count` tokens behind them. -/
def EndsInMarkers (g : Graph) (count : Nat) : Prop :=
  ∀ w, g.Accepts 0 w →
    ∃ u, (∀ c ∈ u, c ∈ CodeSet.chars) ∧ ∃ id < count, w = u ++ [Code.marker (id : Nat)]

/-- The shape of the graph of a tokenizer for `count` tokens. -/
structure WellFormed (g : Graph) (count : Nat) : Prop where
  pos : 0 < g.size
  closed : g.Closed
  isFinal_start : g.isFinal 0 = false
  /-- Every state can be reached from the start. -/
  reached : ∀ i < g.size, ∃ w, g.Path 0 w i
  /-- Every state but the start can reach a final state. -/
  live : ∀ i < g.size, 0 < i → ∃ w, g.Accepts i w
  eq_of_isFinal : ∀ i j, g.isFinal i = true → g.isFinal j = true → i = j
  edges_final : ∀ i, g.isFinal i = true → g.edges i = []
  sorted : ∀ i, (g.edges i).Pairwise fun e f => e.target < f.target
  nonempty : ∀ i, ∀ e ∈ g.edges i, ∃ c, c ∈ e.label
  disjoint : ∀ i, (g.edges i).Pairwise fun e f => ∀ c, ¬(c ∈ e.label ∧ c ∈ f.label)
  /-- Edges into a final state carry markers of tokens. -/
  markers : ∀ i, ∀ e ∈ g.edges i, g.isFinal e.target = true → ∀ c ∈ e.label,
    ∃ id < count, c = Code.marker (id : Nat)
  /-- All other edges carry characters. -/
  chars : ∀ i, ∀ e ∈ g.edges i, g.isFinal e.target = false → ∀ c ∈ e.label, c ∈ CodeSet.chars

variable {g : Graph} {count : Nat} {i j : Nat} {e f : Edge} {c : Int} {u v w : List Int}

/-- A path and the words accepted behind it share characters and a marker at the end. -/
theorem EndsInMarkers.split (hends : g.EndsInMarkers count) (hpath : g.Path 0 w i)
    (haccept : g.Accepts i v) (hv : v ≠ []) :
    (∀ c ∈ w, c ∈ CodeSet.chars) ∧ ∃ v', (∀ c ∈ v', c ∈ CodeSet.chars) ∧
      ∃ id < count, v = v' ++ [Code.marker (id : Nat)] := by
  obtain ⟨u, hu, id, hid, heq⟩ := hends _ (Accepts.of_path hpath haccept)
  obtain ⟨v', rfl, rfl⟩ := exists_eq_concat_of_append_eq heq hv
  obtain ⟨hw, hv'⟩ := List.forall_mem_append.mp hu
  exact ⟨hw, v', hv', id, hid, rfl⟩

/-- Characters alone are not accepted. -/
theorem EndsInMarkers.not_accepts (hends : g.EndsInMarkers count)
    (hw : ∀ c ∈ w, c ∈ CodeSet.chars) : ¬g.Accepts 0 w := by
  intro haccepts
  obtain ⟨u, -, id, -, rfl⟩ := hends w haccepts
  exact Code.marker_not_mem_chars (hw _ (List.mem_append_right u List.mem_cons_self))

theorem EndsInMarkers.isFinal_start (hends : g.EndsInMarkers count) : g.isFinal 0 = false := by
  refine Bool.eq_false_iff.mpr fun hfinal => ?_
  have hnil : ∀ c ∈ ([] : List Int), c ∈ CodeSet.chars := fun c hc => by cases hc
  exact hends.not_accepts hnil ⟨0, Path.nil 0, hfinal⟩

/-! ## From the language to the shape -/

namespace Standard

variable (hstd : g.Standard) (hends : g.EndsInMarkers count)
include hstd hends

/-- Behind a final state nothing is accepted. -/
theorem eq_nil_of_accepts_final (hfinal : g.isFinal i = true) (haccept : g.Accepts i v) :
    v = [] := by
  by_contra hv
  obtain ⟨w, -, hpath⟩ := hstd.reached i (lt_size_of_isFinal hfinal)
  -- The word that leads to the state ends in a marker, but has to consist of characters.
  obtain ⟨u, -, id, -, rfl⟩ := hends w ⟨i, hpath, hfinal⟩
  have hchars := (hends.split hpath haccept hv).1
  exact Code.marker_not_mem_chars (hchars _ (List.mem_append_right u List.mem_cons_self))

theorem edges_eq_nil_of_isFinal (hfinal : g.isFinal i = true) : g.edges i = [] := by
  refine List.eq_nil_iff_forall_not_mem.mpr fun e he => ?_
  obtain ⟨c, hc⟩ := hstd.deterministic.nonempty i e he
  have hne := hstd.deterministic.ne_silent he hc
  obtain ⟨v, -, haccept⟩ := hstd.live _ (hstd.closed i e he) (hstd.target_pos i e he)
  have hlonger := Accepts.of_path (Path.of_edge he hc hne) haccept
  exact List.cons_ne_nil c v (hstd.eq_nil_of_accepts_final hends hfinal hlonger)

/-- All final states accept the same words, so there is one at most. -/
theorem eq_of_isFinal (hi : g.isFinal i = true) (hj : g.isFinal j = true) : i = j := by
  have hpos : ∀ k, g.isFinal k = true → 0 < k := by
    intro k hk
    refine Nat.pos_of_ne_zero fun hzero => ?_
    rw [hzero, hends.isFinal_start] at hk
    cases hk
  have hwords : ∀ k, g.isFinal k = true → ∀ w, g.Accepts k w ↔ w = [] := by
    intro k hk w
    constructor
    · exact hstd.eq_nil_of_accepts_final hends hk
    · rintro rfl
      exact ⟨k, Path.nil k, hk⟩
  refine hstd.distinct i (lt_size_of_isFinal hi) j (lt_size_of_isFinal hj) (hpos i hi) (hpos j hj)
    fun w _ => ?_
  rw [hwords i hi, hwords j hj]

omit hends in
/-- A word can be read up to the end of an edge, on any code of the edge. -/
theorem exists_path_through (he : e ∈ g.edges i) (hc : c ∈ e.label) :
    ∃ w, g.Path 0 w i ∧ g.Path i [c] e.target := by
  obtain ⟨w, -, hpath⟩ := hstd.reached i (lt_size_of_mem_edges he)
  exact ⟨w, hpath, Path.of_edge he hc (hstd.deterministic.ne_silent he hc)⟩

/-- Edges into a final state carry markers. -/
theorem exists_eq_marker (he : e ∈ g.edges i) (hfinal : g.isFinal e.target = true)
    (hc : c ∈ e.label) : ∃ id < count, c = Code.marker (id : Nat) := by
  obtain ⟨w, hpath, hedge⟩ := hstd.exists_path_through he hc
  obtain ⟨-, v', -, id, hid, heq⟩ :=
    hends.split hpath ⟨e.target, hedge, hfinal⟩ (List.cons_ne_nil c [])
  have hletter : [] ++ [c] = v' ++ [Code.marker (id : Nat)] := heq
  exact ⟨id, hid, List.singleton_inj.mp (List.append_inj' hletter rfl).2⟩

/-- All other edges carry characters. -/
theorem mem_chars_of_mem_label (he : e ∈ g.edges i) (hfinal : g.isFinal e.target = false)
    (hc : c ∈ e.label) : c ∈ CodeSet.chars := by
  obtain ⟨w, hpath, hedge⟩ := hstd.exists_path_through he hc
  obtain ⟨v, -, haccept⟩ := hstd.live _ (hstd.closed i e he) (hstd.target_pos i e he)
  have hv : v ≠ [] := by
    rintro rfl
    rw [hstd.deterministic.accepts_nil_iff, hfinal] at haccept
    cases haccept
  have hchars := (hends.split (hpath.append hedge) haccept hv).1
  exact hchars c (List.mem_append_right w List.mem_cons_self)

/-- The shape follows from the language. -/
theorem wellFormed : g.WellFormed count where
  pos := hstd.pos
  closed := hstd.closed
  isFinal_start := hends.isFinal_start
  reached i hi := by
    obtain ⟨w, -, hpath⟩ := hstd.reached i hi
    exact ⟨w, hpath⟩
  live i hi hpos := by
    obtain ⟨w, -, haccept⟩ := hstd.live i hi hpos
    exact ⟨w, haccept⟩
  eq_of_isFinal _ _ hi hj := hstd.eq_of_isFinal hends hi hj
  edges_final _ hfinal := hstd.edges_eq_nil_of_isFinal hends hfinal
  sorted := hstd.sorted
  nonempty := hstd.deterministic.nonempty
  disjoint := hstd.deterministic.disjoint
  markers _ _ he hfinal _ hc := hstd.exists_eq_marker hends he hfinal hc
  chars _ _ he hfinal _ hc := hstd.mem_chars_of_mem_label hends he hfinal hc

end Standard

/-! ## Reading off markers -/

/-- Edges in the order of their targets are the same when they lead to the same state. -/
theorem eq_of_target_eq {es : List Edge} (hsorted : es.Pairwise fun e f => e.target < f.target)
    (he : e ∈ es) (hf : f ∈ es) (htarget : e.target = f.target) : e = f := by
  by_contra hne
  have hsymm : Std.Symm fun e f : Edge => e.target ≠ f.target := ⟨fun _ _ h => h.symm⟩
  have hpair := hsorted.imp fun hlt => Nat.ne_of_lt hlt
  exact hpair.forall he hf hne htarget

namespace WellFormed

variable (hg : g.WellFormed count)
include hg

theorem deterministic : g.Deterministic where
  nonempty := hg.nonempty
  disjoint := hg.disjoint
  noSilent i e he hsilent := by
    cases hfinal : g.isFinal e.target with
    | false => exact absurd (hg.chars i e he hfinal _ hsilent) (by decide)
    | true =>
      obtain ⟨id, -, hid⟩ := hg.markers i e he hfinal _ hsilent
      unfold Code.silent Code.marker at hid
      omega

/-- A state has one edge into a final state at most. -/
theorem edge_eq_of_isFinal (he : e ∈ g.edges i) (hf : f ∈ g.edges i)
    (hfinal : g.isFinal e.target = true) (hfinal' : g.isFinal f.target = true) : e = f :=
  eq_of_target_eq (hg.sorted i) he hf (hg.eq_of_isFinal _ _ hfinal hfinal')

/-- Edges that read a character lead to states that are not final. -/
theorem isFinal_eq_false_of_mem_chars (he : e ∈ g.edges i) (hc : c ∈ e.label)
    (hchar : c ∈ CodeSet.chars) : g.isFinal e.target = false := by
  refine Bool.eq_false_iff.mpr fun hfinal => ?_
  obtain ⟨id, -, rfl⟩ := hg.markers i e he hfinal c hc
  exact Code.marker_not_mem_chars hchar

/-- What a state that is not final accepts ends in a marker. -/
theorem exists_marker_of_accepts (hfinal : g.isFinal i = false) (haccepts : g.Accepts i w) :
    ∃ u, (∀ c ∈ u, c ∈ CodeSet.chars) ∧ ∃ id < count, w = u ++ [Code.marker (id : Nat)] := by
  induction w generalizing i with
  | nil =>
    rw [hg.deterministic.accepts_nil_iff, hfinal] at haccepts
    cases haccepts
  | cons c w ih =>
    obtain ⟨j, hpath, hj⟩ := haccepts
    obtain ⟨e, he, hc, -, hrest⟩ := hg.deterministic.path_cons_iff.mp hpath
    cases hlast : g.isFinal e.target with
    | true =>
      obtain ⟨rfl, -⟩ := hrest.eq_of_edges_eq_nil (hg.edges_final _ hlast)
      obtain ⟨id, hid, rfl⟩ := hg.markers i e he hlast c hc
      exact ⟨[], List.forall_mem_nil _, id, hid, rfl⟩
    | false =>
      obtain ⟨u, hu, id, hid, rfl⟩ := ih hlast ⟨j, hrest, hj⟩
      exact ⟨c :: u, List.forall_mem_cons.mpr ⟨hg.chars i e he hlast c hc, hu⟩, id, hid, rfl⟩

/-- The language follows from the shape. -/
theorem endsInMarkers : g.EndsInMarkers count :=
  fun _ haccepts => hg.exists_marker_of_accepts hg.isFinal_start haccepts

/-- The first code on an edge into a final state is the marker of the largest token on
it. -/
theorem exists_first?_eq_marker (he : e ∈ g.edges i) (hfinal : g.isFinal e.target = true) :
    ∃ id < count, e.label.first? = some (Code.marker (id : Nat)) := by
  obtain ⟨c, hc⟩ := hg.nonempty i e he
  obtain ⟨first, hfirst, -⟩ := CodeSet.exists_first?_of_mem hc
  obtain ⟨id, hid, rfl⟩ := hg.markers i e he hfinal first (CodeSet.mem_of_first? hfirst)
  exact ⟨id, hid, hfirst⟩

/-- A marker is accepted on the edge into the final state. -/
theorem accepts_marker_iff {id : Int} :
    g.Accepts i [Code.marker id] ↔
      ∃ e ∈ g.edges i, g.isFinal e.target = true ∧ Code.marker id ∈ e.label := by
  have hdet := hg.deterministic
  constructor
  · rintro ⟨j, hpath, hfinal⟩
    obtain ⟨e, he, hc, -, hnil⟩ := hdet.path_cons_iff.mp hpath
    obtain rfl := hdet.path_nil_iff.mp hnil
    exact ⟨e, he, hfinal, hc⟩
  · rintro ⟨e, he, hfinal, hc⟩
    exact ⟨e.target, Path.of_edge he hc (hdet.ne_silent he hc), hfinal⟩

/-- The first code on an edge into a final state is the marker of the largest token that is
accepted from its state. -/
theorem isGreatest_of_first? {id : Int} (he : e ∈ g.edges i) (hfinal : g.isFinal e.target = true)
    (hfirst : e.label.first? = some (Code.marker id)) :
    IsGreatest {k | g.Accepts i [Code.marker k]} id := by
  constructor
  · exact hg.accepts_marker_iff.mpr ⟨e, he, hfinal, CodeSet.mem_of_first? hfirst⟩
  · intro k hk
    obtain ⟨f, hf, hfinal', hmarker⟩ := hg.accepts_marker_iff.mp hk
    obtain rfl := hg.edge_eq_of_isFinal he hf hfinal hfinal'
    have hle := CodeSet.le_of_first? hfirst hmarker
    unfold Code.marker at hle
    omega

/-- The first edge of the start into a final state tells the largest token accepted
there. -/
theorem isGreatest_of_emptyMatch? {id : Int} (hempty : g.emptyMatch? 0 = some id) :
    IsGreatest {k | g.Accepts 0 [Code.marker k]} id := by
  obtain ⟨e, hfind, hid⟩ := Option.map_eq_some_iff.mp hempty
  have he := List.mem_of_find?_eq_some hfind
  have hfinal : g.isFinal e.target = true := by simpa using List.find?_some hfind
  obtain ⟨n, -, hfirst⟩ := hg.exists_first?_eq_marker he hfinal
  have hlow : Code.marker n < Code.silent := by
    unfold Code.marker Code.silent
    omega
  rw [hfirst] at hid
  simp only [hlow, if_true, Code.tokenOf_marker] at hid
  subst hid
  exact hg.isGreatest_of_first? he hfinal hfirst

theorem emptyMatch?_eq_none_iff :
    g.emptyMatch? 0 = none ↔ ∀ id, ¬g.Accepts 0 [Code.marker id] := by
  rw [emptyMatch?, Option.map_eq_none_iff, List.find?_eq_none]
  constructor
  · intro hnone id haccept
    obtain ⟨e, he, hfinal, -⟩ := hg.accepts_marker_iff.mp haccept
    exact hnone e he hfinal
  · intro hnone e he hfinal
    obtain ⟨id, -, hfirst⟩ := hg.exists_first?_eq_marker he hfinal
    exact hnone id (hg.accepts_marker_iff.mpr ⟨e, he, hfinal, CodeSet.mem_of_first? hfirst⟩)

/-- The token that the start recognizes without input is the largest one accepted there. -/
theorem emptyMatch?_eq_some_iff {id : Int} :
    g.emptyMatch? 0 = some id ↔ IsGreatest {k | g.Accepts 0 [Code.marker k]} id := by
  constructor
  · exact hg.isGreatest_of_emptyMatch?
  · intro hgreatest
    cases hempty : g.emptyMatch? 0 with
    | none => exact absurd hgreatest.1 (hg.emptyMatch?_eq_none_iff.mp hempty id)
    | some other => rw [(hg.isGreatest_of_emptyMatch? hempty).unique hgreatest]

omit hg in
theorem mem_finalLabels_iff {label : CodeSet} :
    label ∈ finalLabels g ↔
      ∃ i, ∃ e ∈ g.edges i, g.isFinal e.target = true ∧ e.label = label := by
  simp only [finalLabels, List.mem_flatMap, List.mem_map, List.mem_filter, Array.mem_toList_iff]
  constructor
  · rintro ⟨s, hs, e, ⟨he, hfinal⟩, rfl⟩
    obtain ⟨i, hi, rfl⟩ := Array.mem_iff_getElem.mp hs
    refine ⟨i, e, ?_, hfinal, rfl⟩
    rw [edges, Array.getElem?_eq_getElem hi]
    exact he
  · rintro ⟨i, e, he, hfinal, rfl⟩
    have hi : i < g.states.size := lt_size_of_mem_edges he
    refine ⟨g.states[i], Array.getElem_mem hi, e, ⟨?_, hfinal⟩, rfl⟩
    rw [edges, Array.getElem?_eq_getElem hi] at he
    exact he

/-- A marker stands on an edge into a final state when some text is accepted with it. -/
theorem exists_finalLabel_iff {id : Int} :
    (∃ label ∈ finalLabels g, Code.marker id ∈ label) ↔
      ∃ u, g.Accepts 0 (u ++ [Code.marker id]) := by
  constructor
  · rintro ⟨label, hlabel, hmarker⟩
    obtain ⟨i, e, he, hfinal, rfl⟩ := mem_finalLabels_iff.mp hlabel
    obtain ⟨u, hpath⟩ := hg.reached i (lt_size_of_mem_edges he)
    exact ⟨u, Accepts.of_path hpath (hg.accepts_marker_iff.mpr ⟨e, he, hfinal, hmarker⟩)⟩
  · rintro ⟨u, haccept⟩
    obtain ⟨i, -, hlast⟩ := accepts_append_iff.mp haccept
    obtain ⟨e, he, hfinal, hmarker⟩ := hg.accepts_marker_iff.mp hlast
    exact ⟨e.label, mem_finalLabels_iff.mpr ⟨i, e, he, hfinal, rfl⟩, hmarker⟩

theorem not_any_finalLabels_iff {id : Int} :
    (!(finalLabels g).any fun label => label.contains (Code.marker id)) = true ↔
      ∀ u, ¬g.Accepts 0 (u ++ [Code.marker id]) := by
  rw [Bool.not_eq_true', ← Bool.not_eq_true, List.any_eq_true, ← not_exists]
  exact not_congr hg.exists_finalLabel_iff

theorem unrecognized?_eq_none_iff :
    unrecognized? g count = none ↔ ∀ k < count, ∃ u, g.Accepts 0 (u ++ [Code.marker (k : Nat)]) := by
  simp only [unrecognized?, List.find?_eq_none, hg.not_any_finalLabels_iff, List.mem_range, not_forall,
    not_not]

/-- The first token without a marker is the first one that no text is accepted for. -/
theorem unrecognized?_eq_some_iff {n : Nat} :
    unrecognized? g count = some n ↔
      IsLeast {k : Nat | k < count ∧ ∀ u, ¬g.Accepts 0 (u ++ [Code.marker k])} n := by
  have hfound : ∀ k : Nat,
      (!!(finalLabels g).any fun label => label.contains (Code.marker k)) = true ↔
        ¬∀ u, ¬g.Accepts 0 (u ++ [Code.marker k]) := by
    intro k
    rw [Bool.not_eq_true', ← Bool.not_eq_true, hg.not_any_finalLabels_iff]
  simp only [unrecognized?, List.find?_range_eq_some, hg.not_any_finalLabels_iff, hfound,
    List.mem_range]
  constructor
  · rintro ⟨hn, hlt, hfirst⟩
    refine ⟨⟨hlt, hn⟩, fun k hk => ?_⟩
    exact Nat.not_lt.mp fun hkn => hfirst k hkn hk.2
  · rintro ⟨⟨hlt, hn⟩, hleast⟩
    refine ⟨hn, hlt, fun k hkn hk => ?_⟩
    exact absurd (hleast ⟨Nat.lt_trans hkn hlt, hk⟩) (Nat.not_le.mpr hkn)

end WellFormed
end Graph
end Munch

import Mathlib.Algebra.BigOperators.Group.Finset.Basic
import Mathlib.Data.List.Permutation
import Munch.Proofs.Compile.Passes

/-!
# Priorities by the ways through a graph

In declaration order an edge is given up when every way to its source has come to a token that
is defined later than the one of its target.  Ways pass no final state, so that all edges of a
state that is reached through final ones only are given up if their targets have tokens.

Nothing else is removed: from the states that the start leads to, edges into final states keep
the marker of one token, and all other edges stay as they are.

Main results:

- Theorem {lit}`Graph.exists_way_iff`: ways on which no token after some limit is recognized.
- Theorem {lit}`Graph.isShadowed_precedence_iff`: the edges that are given up, by the ways to
  their sources.
- Theorem {lit}`Graph.resolve_declarationOrder_by_ways`: what resolving priorities in declaration
  order does to a graph, and what it reports.
-/

namespace Munch
namespace Graph

variable {g h : Graph} {tokens : Array Int} {start i j : Nat} {limit : Int} {e : Edge}
  {states : List Nat}

/-! ## Ways -/

/-- A way from the start to a state, with the states that it comes to after the start.  None
of these is final. -/
inductive Way (g : Graph) (start : Nat) : List Nat → Nat → Prop
  | here : Way g start [] start
  | step {states : List Nat} {i j : Nat} (hway : Way g start states i)
      (hnext : j ∈ g.successors i) (hfinal : g.isFinal j = false) : Way g start (states ++ [j]) j

/-- An edge from a state into one that is not final and has a token, when a later token has
been recognized on every way to the first state. -/
def GivenUp (g : Graph) (tokens : Array Int) (start i : Nat) (e : Edge) : Prop :=
  g.isFinal e.target = false ∧ 0 ≤ tokenAt tokens e.target ∧
    ∀ states, g.Way start states i →
      ∃ s ∈ start :: states, tokenAt tokens e.target < tokenAt tokens s

/-- Below a limit one comes to a state along a way on which no token is after the limit. -/
theorem exists_way_iff :
    (∃ states, g.Way start states i ∧ ∀ s ∈ start :: states, tokenAt tokens s ≤ limit) ↔
      tokenAt tokens start ≤ limit ∧ Leads (g.stepsBelow tokens limit) start i := by
  constructor
  · rintro ⟨states, hway, hall⟩
    obtain ⟨hstart, hrest⟩ := List.forall_mem_cons.mp hall
    refine ⟨hstart, ?_⟩
    clear hall
    induction hway with
    | here => exact Relation.ReflTransGen.refl
    | @step states i j _ hnext hfinal ih =>
      obtain ⟨hbefore, hlast⟩ := List.forall_mem_append.mp hrest
      have htoken : tokenAt tokens j ≤ limit := hlast j (List.mem_singleton.mpr rfl)
      exact (ih hbefore).tail (mem_stepsBelow_iff.mpr ⟨hnext, hfinal, htoken⟩)
  · rintro ⟨hstart, hleads⟩
    induction hleads with
    | refl => exact ⟨[], Way.here, List.forall_mem_cons.mpr ⟨hstart, List.forall_mem_nil _⟩⟩
    | @tail j k _ hstep ih =>
      obtain ⟨states, hway, hall⟩ := ih
      obtain ⟨hnext, hfinal, htoken⟩ := mem_stepsBelow_iff.mp hstep
      refine ⟨states ++ [k], hway.step hnext hfinal, ?_⟩
      rw [← List.cons_append]
      exact List.forall_mem_append.mpr ⟨hall, by simpa using htoken⟩

/-- The precedence of a state is above a token when every way to the state has come to a later
one. -/
theorem lt_precedence_iff (hclosed : g.Closed) (hsize : tokens.size = g.size)
    (hstart : start < g.size) (hi : i < g.size) (hlimit : limit < noToken) :
    limit < notedAt (g.precedence tokens start) i ↔
      ∀ states, g.Way start states i → ∃ s ∈ start :: states, limit < tokenAt tokens s := by
  rw [← Int.not_le, notedAt, precedence_le_iff hclosed hsize hstart hi hlimit, ← exists_way_iff]
  push Not
  rfl

/-- The filter gives up the edges that are to be given up. -/
theorem isShadowed_precedence_iff (hclosed : g.Closed) (hsize : tokens.size = g.size)
    (hstart : start < g.size) (hi : i < g.size) (htokens : ∀ k, tokenAt tokens k < noToken) :
    g.isShadowed tokens (notedAt (g.precedence tokens start) i) e = true ↔
      g.GivenUp tokens start i e := by
  rw [GivenUp, ← lt_precedence_iff hclosed hsize hstart hi (htokens e.target)]
  simp [isShadowed]

/-! ## What is left -/

open scoped Classical in
/-- The states that the start leads to. -/
noncomputable def reached (g : Graph) (start : Nat) : Finset Nat :=
  {i ∈ Finset.range g.size | Leads g.successors start i}

open scoped Classical in
/-- A graph whose priorities were resolved by the tokens of its states, and what was reported
of that. -/
structure Resolves (g : Graph) (tokens : Array Int) (start : Nat) (h : Graph)
    (report : FilterReport) : Prop where
  size_eq : h.size = g.size
  isFinal_eq : ∀ i, h.isFinal i = g.isFinal i
  edges_unreached : ∀ i, ¬Leads g.successors start i → h.edges i = g.edges i
  edges_reached : ∀ i, Leads g.successors start i →
    h.edges i = ((g.edges i).filter fun e => ¬g.GivenUp tokens start i e).map g.trimLabel
  /-- One marker is left on an edge into a final state, that of the token defined last. -/
  label_final : ∀ i, Leads g.successors start i → ∀ e ∈ g.edges i, g.isFinal e.target = true →
    ∃ c, Code.isMarker c = true ∧ IsLeast {d | d ∈ e.label} c ∧
      (∀ d ∈ e.label, Code.tokenOf d ≤ Code.tokenOf c) ∧
      g.trimLabel e = ⟨CodeSet.single c, e.target⟩
  label_other : ∀ e, g.isFinal e.target = false → g.trimLabel e = e
  removedEdges_eq : report.removedEdges =
    ∑ i ∈ g.reached start, (g.edges i).countP fun e => g.GivenUp tokens start i e
  trimmedLabels_eq : report.trimmedLabels =
    ∑ i ∈ g.reached start, (g.edges i).countP fun e => g.trimLabel e ≠ e

open scoped Classical in
theorem mem_reached_iff (hclosed : g.Closed) (hstart : start < g.size) :
    i ∈ g.reached start ↔ Leads g.successors start i := by
  rw [reached, Finset.mem_filter, Finset.mem_range]
  exact ⟨And.right, fun hleads => ⟨hclosed.lt_of_leads hstart hleads, hleads⟩⟩

/-- What is counted at the states of the order is counted at those that the start leads to. -/
theorem sum_topologicalOrder (hclosed : g.Closed) (hstart : start < g.size) (f : Nat → Nat) :
    ((g.topologicalOrder start).map f).sum = ∑ i ∈ g.reached start, f i := by
  rw [← List.sum_toFinset f (nodup_topologicalOrder hstart)]
  refine Finset.sum_congr (Finset.ext fun i => ?_) fun _ _ => rfl
  rw [List.mem_toFinset, mem_topologicalOrder_iff hclosed, mem_reached_iff hclosed hstart]

/-- Trimming changes the label of an edge when that has more codes than the first. -/
theorem trimLabel_ne_iff : g.trimLabel e ≠ e ↔ g.isTrimmable e = true := by
  constructor
  · intro hne
    by_contra htrim
    exact hne (trimLabel_of_not_isTrimmable (Bool.not_eq_true _ ▸ htrim))
  · intro htrim heq
    have hlabel : CodeSet.single (e.label.first?.getD 0) = e.label := by
      rw [trimLabel, if_pos htrim] at heq
      exact congrArg Edge.label heq
    have hmany : e.label.single? = none := by
      simp only [isTrimmable, Bool.and_eq_true, Option.isNone_iff_eq_none] at htrim
      exact htrim.2
    rw [← hlabel] at hmany
    simp [CodeSet.single, CodeSet.range, CodeSet.single?] at hmany

/-- An edge that is marked keeps the marker of the token defined last. -/
theorem exists_isLeast_of_marked (hfinal : g.isFinal e.target = true) (hmarked : e.Marked) :
    ∃ c, Code.isMarker c = true ∧ IsLeast {d | d ∈ e.label} c ∧
      (∀ d ∈ e.label, Code.tokenOf d ≤ Code.tokenOf c) ∧
      g.trimLabel e = ⟨CodeSet.single c, e.target⟩ := by
  obtain ⟨c, hfirst, hmarker⟩ := hmarked
  have hleast : ∀ d ∈ e.label, c ≤ d := fun d hd => CodeSet.le_of_first? hfirst hd
  refine ⟨c, hmarker, ⟨CodeSet.mem_of_first? hfirst, hleast⟩, fun d hd => ?_, ?_⟩
  · exact Int.sub_le_sub_left (hleast d hd) _
  · have htarget : (g.trimLabel e).target = e.target := (g.trimLabel_spec e).1
    have hlabel : (g.trimLabel e).label = CodeSet.single c := label_trimLabel hfinal hfirst
    rw [← htarget, ← hlabel]

open scoped Classical in
theorem keptEdges_precedence (hclosed : g.Closed) (hsize : tokens.size = g.size)
    (hstart : start < g.size) (hi : i < g.size) (htokens : ∀ k, tokenAt tokens k < noToken) :
    g.keptEdges tokens (g.precedence tokens start) i =
      (g.edges i).filter fun e => ¬g.GivenUp tokens start i e := by
  refine List.filter_congr fun e _ => ?_
  have hiff := isShadowed_precedence_iff (e := e) hclosed hsize hstart hi htokens
  rw [Bool.eq_iff_iff, decide_eq_true_iff, ← hiff, Bool.not_eq_true', Bool.eq_false_iff]
  rfl

open scoped Classical in
theorem length_shadowedEdges_precedence (hclosed : g.Closed) (hsize : tokens.size = g.size)
    (hstart : start < g.size) (hi : i < g.size) (htokens : ∀ k, tokenAt tokens k < noToken) :
    (g.shadowedEdges tokens (g.precedence tokens start) i).length =
      (g.edges i).countP fun e => g.GivenUp tokens start i e := by
  rw [shadowedEdges, ← List.countP_eq_length_filter]
  refine List.countP_congr fun e _ => ?_
  rw [decide_eq_true_iff]
  exact isShadowed_precedence_iff hclosed hsize hstart hi htokens

/-- Labels are trimmed on edges into final states, which are kept. -/
theorem length_filter_keptEdges (g : Graph) (tokens bounds : Array Int) (i : Nat) :
    ((g.keptEdges tokens bounds i).filter g.isTrimmable).length =
      (g.edges i).countP fun e => g.trimLabel e ≠ e := by
  rw [keptEdges, List.filter_filter, ← List.countP_eq_length_filter]
  refine List.countP_congr fun e _ => ?_
  rw [decide_eq_true_iff, trimLabel_ne_iff, Bool.and_eq_true]
  refine ⟨And.left, fun htrim => ⟨htrim, ?_⟩⟩
  have hfinal : g.isFinal e.target = true := by
    simp only [isTrimmable, Bool.and_eq_true] at htrim
    exact htrim.1.1
  simp [isShadowed, hfinal]

/-- Resolving priorities in declaration order gives up the edges that are to be given up and
shortens labels of edges into final states. -/
theorem resolves_filtered (hclosed : g.Closed) (hstart : start < g.size)
    (htokens : g.endingTokens (g.topologicalOrder start) = .ok tokens) :
    Resolves g tokens start
      (g.filtered (g.topologicalOrder start) tokens (g.precedence tokens start))
      (g.filterReport (g.topologicalOrder start) tokens (g.precedence tokens start)) := by
  have hsize := size_of_endingTokens htokens
  have hlt := tokenAt_lt_noToken htokens
  have hreached : ∀ i, Leads g.successors start i → i < g.size := fun _ hleads =>
    hclosed.lt_of_leads hstart hleads
  refine
    { size_eq := size_filtered
      isFinal_eq := fun _ => isFinal_filtered
      edges_unreached := fun i hleads => ?_
      edges_reached := fun i hleads => ?_
      label_final := fun i hleads e he hfinal => ?_
      label_other := fun e hfinal => trimLabel_of_isFinal_eq_false hfinal
      removedEdges_eq := ?_
      trimmedLabels_eq := ?_ }
  · rw [edges_filtered, if_neg fun h => hleads ((mem_topologicalOrder_iff hclosed).mp h.1)]
  · have horder := (mem_topologicalOrder_iff hclosed).mpr hleads
    rw [edges_filtered, if_pos ⟨horder, hreached i hleads⟩,
      keptEdges_precedence hclosed hsize hstart (hreached i hleads) hlt]
  · have hmarked := marked_of_endingTokens htokens hclosed (hreached i hleads) hleads
    exact exists_isLeast_of_marked hfinal (hmarked e he hfinal)
  · simp only [filterReport, List.length_flatMap, sum_topologicalOrder hclosed hstart]
    refine Finset.sum_congr rfl fun i hi => ?_
    have hlt' := hreached i ((mem_reached_iff hclosed hstart).mp hi)
    exact length_shadowedEdges_precedence hclosed hsize hstart hlt' hlt
  · simp only [filterReport, List.length_flatMap, sum_topologicalOrder hclosed hstart]
    exact Finset.sum_congr rfl fun i _ => g.length_filter_keptEdges tokens _ i

/-! ## Declaration order -/

/-- In declaration order priorities are resolved by relaxation and two passes over the graph.
That fails when an edge into a final state, of a state which the start leads to, has no marker
as its first code; then the graph is left as it was.  Otherwise the edges go that are to be
given up by the ways to their sources, one marker is left on those into final states, nothing
else changes, and the changes are counted. -/
theorem resolve_declarationOrder_by_ways (hclosed : g.Closed) (hstart : start < g.size) :
    (∀ fault, g.endingTokens (g.topologicalOrder start) = .error fault →
      g.resolve .declarationOrder start = .error fault ∧
      g.filterInPlace start = (.error fault, g) ∧
      ∃ i, Leads g.successors start i ∧ ∃ e ∈ g.edges i,
        g.isFinal e.target = true ∧ ¬e.Marked ∧ fault = .unmarkedFinal i e.target) ∧
    ∀ tokens, g.endingTokens (g.topologicalOrder start) = .ok tokens →
      (∀ i, Leads g.successors start i →
        (∀ e ∈ g.edges i, g.isFinal e.target = true → e.Marked) ∧
          tokenAt tokens i = g.lastToken i) ∧
      ∃ h report, g.resolve .declarationOrder start = .ok (h, report) ∧
        g.filterInPlace start = (.ok report, h) ∧ Resolves g tokens start h report := by
  refine ⟨fun fault hfault => ?_, fun tokens htokens => ?_⟩
  · have hresolve : g.resolve .declarationOrder start = .error fault := by
      rw [resolve_eq (by decide), hfault]
      rfl
    refine ⟨hresolve, ?_, exists_of_endingTokens_eq_error hclosed hfault⟩
    rw [filterInPlace_eq hclosed hstart, hresolve]
  · have hresolve : g.resolve .declarationOrder start =
        .ok (g.filtered (g.topologicalOrder start) tokens (g.precedence tokens start),
          g.filterReport (g.topologicalOrder start) tokens (g.precedence tokens start)) := by
      rw [resolve_eq (by decide), htokens]
      rfl
    refine ⟨fun i hleads => ?_, _, _, hresolve, ?_, resolves_filtered hclosed hstart htokens⟩
    · have hi := hclosed.lt_of_leads hstart hleads
      exact ⟨marked_of_endingTokens htokens hclosed hi hleads,
        tokenAt_eq_lastToken htokens hclosed hi hleads⟩
    · rw [filterInPlace_eq hclosed hstart, hresolve]

/-- Two tokens, of which the one defined later is recognized on every way to where the other
is, by a letter that may be repeated. -/
def overtaken : Graph :=
  ⟨#[⟨false, [⟨CodeSet.single 97, 1⟩]⟩,
    ⟨false, [⟨CodeSet.single 99, 2⟩, ⟨CodeSet.range (Code.marker 1) Code.silent (by decide), 3⟩]⟩,
    ⟨false, [⟨CodeSet.single 99, 2⟩, ⟨CodeSet.single (Code.marker 0), 3⟩]⟩,
    ⟨true, []⟩]⟩

theorem resolve_declarationOrder_overtaken :
    overtaken.Closed ∧ 0 < overtaken.size ∧
      ∃ h, overtaken.resolve .declarationOrder 0 = .ok (h, ⟨2, 1⟩) ∧
        overtaken.filterInPlace 0 = (.ok ⟨2, 1⟩, h) ∧
        Resolves overtaken #[-1, 1, 0, -1] 0 h ⟨2, 1⟩ := by
  have hclosed : overtaken.Closed := by decide
  have hpos : 0 < overtaken.size := by decide
  have horder : overtaken.topologicalOrder 0 = [0, 1, 2, 3] := by cbv
  have htokens : overtaken.endingTokens (overtaken.topologicalOrder 0) = .ok #[-1, 1, 0, -1] := by
    rw [horder]
    decide
  have hprecedence : overtaken.precedence #[-1, 1, 0, -1] 0 = #[-1, 1, 1, noToken] := by cbv
  have hreport : (overtaken.resolve .declarationOrder 0).map Prod.snd = .ok ⟨2, 1⟩ := by
    rw [resolve_eq (by decide), htokens, horder]
    simp only [Except.map, precedenceIn, if_true, hprecedence]
    decide
  obtain ⟨-, h, report, hresolve, hplace, hresolves⟩ :=
    (resolve_declarationOrder_by_ways hclosed hpos).2 _ htokens
  rw [hresolve] at hreport
  cases hreport
  exact ⟨hclosed, hpos, h, hresolve, hplace, hresolves⟩

end Graph
end Munch

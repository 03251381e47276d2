import Munch.Proofs.Automaton.Walk
import Munch.Proofs.Graph.Order

/-!
# What the filter does to edges

Resolving priorities replaces the edges of the states that the start leads to: some edges
into states that are not final go, and labels of edges into final states lose all but their
first code.  It succeeds when every edge into a final state has a marker as its first code,
and a filter that reports no change makes none.

Main results:

- Theorem {lit}`Graph.resolve_eq`: the result of resolving priorities as one equation.
- Theorem {lit}`Graph.exists_resolve_eq_ok`: when priorities can be resolved.
- Theorem {lit}`Graph.filtered_of_resolve` and theorem {lit}`Graph.trimmed_of_resolve`: how
  the result differs from the graph.
- Theorem {lit}`Graph.eq_of_resolve`: without a report of changes the result is the graph.
- Theorem {lit}`Graph.exists_eq_single_of_resolve`: one code is left on the edges into
  final states.
-/

namespace Munch

namespace Graph

variable {g h : Graph} {i j start : Nat} {u w : List Int} {e : Edge} {mode : PriorityMode}
  {report : FilterReport} {order : List Nat} {tokens precedence : Array Int}

/-! ## Trimmed labels -/

/-- Trimming an edge keeps its target and takes codes away. -/
theorem trimLabel_spec (g : Graph) (e : Edge) :
    (g.trimLabel e).target = e.target ∧ ∀ c ∈ (g.trimLabel e).label, c ∈ e.label := by
  unfold trimLabel
  split
  · rename_i htrim
    refine ⟨rfl, fun c hc => ?_⟩
    simp only [isTrimmable, Bool.and_eq_true, Bool.not_eq_true'] at htrim
    obtain ⟨first, hfirst⟩ := CodeSet.exists_first?_of_isEmpty_eq_false htrim.1.2
    rw [CodeSet.mem_single, hfirst] at hc
    rw [hc]
    exact CodeSet.mem_of_first? hfirst
  · exact ⟨rfl, fun c hc => hc⟩

theorem trimLabel_of_not_isTrimmable (htrim : g.isTrimmable e = false) : g.trimLabel e = e := by
  rw [trimLabel, if_neg (Bool.eq_false_iff.mp htrim)]

theorem trimLabel_of_isFinal_eq_false (hfinal : g.isFinal e.target = false) :
    g.trimLabel e = e :=
  trimLabel_of_not_isTrimmable (by simp [isTrimmable, hfinal])

/-- On an edge into a final state the first code is left alone. -/
theorem label_trimLabel {c : Int} (hfinal : g.isFinal e.target = true)
    (hfirst : e.label.first? = some c) : (g.trimLabel e).label = CodeSet.single c := by
  have hmem := CodeSet.mem_of_first? hfirst
  have hempty : e.label.isEmpty = false := CodeSet.isEmpty_eq_false_iff.mpr ⟨c, hmem⟩
  unfold trimLabel
  split
  · rw [hfirst]
    rfl
  · rename_i htrim
    cases hsingle : e.label.single? with
    | none => exact absurd (by simp [isTrimmable, hfinal, hempty, hsingle]) htrim
    | some d =>
      have hlabel := CodeSet.single?_eq_some_iff.mp hsingle
      rw [hlabel, CodeSet.mem_single] at hmem
      rw [hlabel, hmem]

/-- Trimming a label leaves a code. -/
theorem exists_mem_label_trimLabel (hlabel : ∃ c, c ∈ e.label) : ∃ c, c ∈ (g.trimLabel e).label := by
  unfold trimLabel
  split
  · exact ⟨_, CodeSet.mem_single.mpr rfl⟩
  · exact hlabel

/-! ## Changed edges -/

/-- A graph that differs from another one in the labels of edges into final states at
most, which may have lost all but their first code. -/
structure Trimmed (g h : Graph) : Prop where
  size_eq : h.size = g.size
  isFinal_eq : ∀ i, h.isFinal i = g.isFinal i
  edges_eq : ∀ i, h.edges i = g.edges i ∨ h.edges i = (g.edges i).map g.trimLabel

/-- A graph that may besides have lost edges into states that are not final. -/
structure Filtered (g h : Graph) : Prop where
  size_eq : h.size = g.size
  isFinal_eq : ∀ i, h.isFinal i = g.isFinal i
  edges_eq : ∀ i, ∃ keep : Edge → Bool, (∀ e, g.isFinal e.target = true → keep e = true) ∧
    (h.edges i = (g.edges i).filter keep ∨ h.edges i = ((g.edges i).filter keep).map g.trimLabel)

theorem Trimmed.refl (g : Graph) : Trimmed g g where
  size_eq := rfl
  isFinal_eq _ := rfl
  edges_eq _ := Or.inl rfl

theorem Trimmed.filtered (htrimmed : Trimmed g h) : Filtered g h where
  size_eq := htrimmed.size_eq
  isFinal_eq := htrimmed.isFinal_eq
  edges_eq i := by
    refine ⟨fun _ => true, fun _ _ => rfl, ?_⟩
    rw [List.filter_true]
    exact htrimmed.edges_eq i

/-- Edges into states that are not final stay. -/
theorem Trimmed.mem_edges (htrimmed : Trimmed g h) (he : e ∈ g.edges i)
    (hfinal : g.isFinal e.target = false) : e ∈ h.edges i := by
  rcases htrimmed.edges_eq i with hedges | hedges
  · rw [hedges]
    exact he
  · rw [hedges]
    exact List.mem_map.mpr ⟨e, he, trimLabel_of_isFinal_eq_false hfinal⟩

namespace Filtered

variable (hfiltered : Filtered g h)
include hfiltered

theorem exists_edge (he : e ∈ h.edges i) :
    ∃ f ∈ g.edges i, f.target = e.target ∧ ∀ c ∈ e.label, c ∈ f.label := by
  obtain ⟨keep, -, hedges | hedges⟩ := hfiltered.edges_eq i
  · rw [hedges] at he
    exact ⟨e, List.mem_of_mem_filter he, rfl, fun c hc => hc⟩
  · rw [hedges] at he
    obtain ⟨f, hf, rfl⟩ := List.mem_map.mp he
    obtain ⟨htarget, hlabel⟩ := g.trimLabel_spec f
    exact ⟨f, List.mem_of_mem_filter hf, htarget.symm, hlabel⟩

/-- The first code of an edge into a final state stays. -/
theorem exists_edge_of_first {c : Int} (he : e ∈ g.edges i) (hfinal : g.isFinal e.target = true)
    (hfirst : e.label.first? = some c) : ∃ f ∈ h.edges i, f.target = e.target ∧ c ∈ f.label := by
  obtain ⟨keep, hkeep, hedges | hedges⟩ := hfiltered.edges_eq i
  · rw [hedges]
    exact ⟨e, List.mem_filter.mpr ⟨he, hkeep e hfinal⟩, rfl, CodeSet.mem_of_first? hfirst⟩
  · refine ⟨g.trimLabel e, ?_, (g.trimLabel_spec e).1, ?_⟩
    · rw [hedges]
      exact List.mem_map_of_mem (List.mem_filter.mpr ⟨he, hkeep e hfinal⟩)
    · rw [label_trimLabel hfinal hfirst]
      exact CodeSet.mem_single.mpr rfl

/-- What holds of pairs of edges in order still does if trimming keeps it. -/
theorem pairwise {R : Edge → Edge → Prop}
    (hR : ∀ e f, R e f → R (g.trimLabel e) (g.trimLabel f)) (hpair : (g.edges i).Pairwise R) :
    (h.edges i).Pairwise R := by
  obtain ⟨keep, -, hedges | hedges⟩ := hfiltered.edges_eq i
  · rw [hedges]
    exact hpair.filter keep
  · rw [hedges]
    exact List.pairwise_map.mpr ((hpair.filter keep).imp (hR _ _))

theorem sorted (hsorted : (g.edges i).Pairwise fun e f => e.target < f.target) :
    (h.edges i).Pairwise fun e f => e.target < f.target := by
  refine hfiltered.pairwise (fun e f hlt => ?_) hsorted
  rwa [(g.trimLabel_spec e).1, (g.trimLabel_spec f).1]

theorem deterministic (hdet : g.Deterministic) : h.Deterministic where
  nonempty i e he := by
    obtain ⟨keep, -, hedges | hedges⟩ := hfiltered.edges_eq i
    · rw [hedges] at he
      exact hdet.nonempty i e (List.mem_of_mem_filter he)
    · rw [hedges] at he
      obtain ⟨f, hf, rfl⟩ := List.mem_map.mp he
      exact exists_mem_label_trimLabel (hdet.nonempty i f (List.mem_of_mem_filter hf))
  disjoint i := hfiltered.pairwise (fun e f hdisjoint c hc =>
    hdisjoint c ⟨(g.trimLabel_spec e).2 c hc.1, (g.trimLabel_spec f).2 c hc.2⟩) (hdet.disjoint i)
  noSilent i e he hsilent := by
    obtain ⟨f, hf, -, hlabel⟩ := hfiltered.exists_edge he
    exact hdet.noSilent i f hf (hlabel _ hsilent)

theorem closed (hclosed : g.Closed) : h.Closed := by
  intro i e he
  obtain ⟨f, hf, htarget, -⟩ := hfiltered.exists_edge he
  rw [← htarget, hfiltered.size_eq]
  exact hclosed i f hf

/-- What leads from a state to another did so before. -/
theorem path (hpath : h.Path i w j) : g.Path i w j := by
  induction hpath with
  | nil i => exact Path.nil i
  | silent he hsilent _ ih =>
    obtain ⟨f, hf, htarget, hlabel⟩ := hfiltered.exists_edge he
    exact Path.silent hf (hlabel _ hsilent) (htarget ▸ ih)
  | read he hc hne _ ih =>
    obtain ⟨f, hf, htarget, hlabel⟩ := hfiltered.exists_edge he
    exact Path.read hf (hlabel _ hc) hne (htarget ▸ ih)

/-- What is accepted was accepted before. -/
theorem accepts (haccepts : h.Accepts i w) : g.Accepts i w := by
  obtain ⟨j, hpath, hfinal⟩ := haccepts
  exact ⟨j, hfiltered.path hpath, hfiltered.isFinal_eq j ▸ hfinal⟩

end Filtered

/-! ## The filter -/

theorem size_foldl_setEdges (f : Nat → List Edge) (order : List Nat) :
    (order.foldl (fun r i => r.setEdges i (f i)) g).size = g.size := by
  induction order generalizing g with
  | nil => rfl
  | cons i order ih => rw [List.foldl_cons, ih, size_setEdges]

theorem isFinal_foldl_setEdges (f : Nat → List Edge) (order : List Nat) :
    (order.foldl (fun r i => r.setEdges i (f i)) g).isFinal j = g.isFinal j := by
  induction order generalizing g with
  | nil => rfl
  | cons i order ih => rw [List.foldl_cons, ih, setEdges, isFinal_mapEdges]

/-- Replacing the edges of states one after the other. -/
theorem edges_foldl_setEdges (f : Nat → List Edge) (order : List Nat) :
    (order.foldl (fun r i => r.setEdges i (f i)) g).edges j =
      if j ∈ order ∧ j < g.size then f j else g.edges j := by
  induction order generalizing g with
  | nil => simp
  | cons i order ih =>
    rw [List.foldl_cons, ih, size_setEdges, setEdges, edges_mapEdges]
    by_cases hij : i = j
    · subst hij
      by_cases hi : i < g.size
      · simp [hi]
      · simp [hi]
    · simp [hij, Ne.symm hij]

/-- When no token has a precedence, no edge is given up. -/
theorem keptEdges_unknown (g : Graph) (tokens : Array Int) (i : Nat) :
    g.keptEdges tokens (Array.replicate g.size unknownToken) i = g.edges i := by
  by_cases hi : i < g.size
  · refine List.filter_eq_self.mpr fun e _ => ?_
    have hreached : (Array.replicate g.size unknownToken)[i]?.getD noToken = unknownToken := by
      rw [Array.getElem?_replicate, if_pos hi]
      rfl
    have hnone : ¬(0 ≤ tokenAt tokens e.target ∧ tokenAt tokens e.target < unknownToken) := by
      unfold unknownToken
      omega
    rw [hreached, isShadowed]
    simp [hnone]
  · rw [keptEdges, edges_eq_nil_of_size_le (Nat.not_lt.mp hi)]
    rfl

/-- The precedences that a mode compares tokens with. -/
def precedenceIn (g : Graph) (mode : PriorityMode) (tokens : Array Int) (start : Nat) :
    Array Int :=
  if mode = .declarationOrder then g.precedence tokens start
  else Array.replicate g.size unknownToken

/-- The graph without the edges that are given up at the listed states, and with trimmed
labels there. -/
def filtered (g : Graph) (order : List Nat) (tokens precedence : Array Int) : Graph :=
  order.foldl (fun r i => r.setEdges i ((g.keptEdges tokens precedence i).map g.trimLabel)) g

/-- What is reported of the changes at the listed states. -/
def filterReport (g : Graph) (order : List Nat) (tokens precedence : Array Int) : FilterReport :=
  ⟨(order.flatMap (g.shadowedEdges tokens precedence)).length,
    (order.flatMap fun i => (g.keptEdges tokens precedence i).filter g.isTrimmable).length⟩

/-- The result of resolving priorities. -/
theorem resolve_eq (hmode : mode ≠ .off) :
    g.resolve mode start = (g.endingTokens (g.topologicalOrder start)).map fun tokens =>
      (g.filtered (g.topologicalOrder start) tokens (g.precedenceIn mode tokens start),
        g.filterReport (g.topologicalOrder start) tokens (g.precedenceIn mode tokens start)) := by
  cases htokens : g.endingTokens (g.topologicalOrder start) with
  | error fault =>
    cases mode with
    | off => exact absurd rfl hmode
    | longestMatch => simp only [resolve, htokens]; rfl
    | declarationOrder => simp only [resolve, htokens]; rfl
  | ok tokens =>
    simp only [filtered, filterReport]
    cases mode with
    | off => exact absurd rfl hmode
    | longestMatch =>
      simp only [resolve, htokens, List.flatMap_map, List.foldl_map]
      rfl
    | declarationOrder =>
      simp only [resolve, htokens, List.flatMap_map, List.foldl_map]
      rfl

/-- What is resolved is the filtered graph, and the changes are reported. -/
theorem exists_filtered_of_resolve (hmode : mode ≠ .off)
    (hresolve : g.resolve mode start = .ok (h, report)) :
    ∃ tokens, g.endingTokens (g.topologicalOrder start) = .ok tokens ∧
      h = g.filtered (g.topologicalOrder start) tokens (g.precedenceIn mode tokens start) ∧
        report =
          g.filterReport (g.topologicalOrder start) tokens (g.precedenceIn mode tokens start) := by
  rw [resolve_eq hmode] at hresolve
  obtain ⟨tokens, htokens, hfound⟩ := map_eq_ok_iff.mp hresolve
  cases hfound
  exact ⟨tokens, htokens, rfl, rfl⟩

/-- When every edge into a final state has a marker as its first code, priorities can be
resolved. -/
theorem exists_resolve_eq_ok (mode : PriorityMode) (start : Nat)
    (hmarkers : ∀ i, ∀ e ∈ g.edges i, g.isFinal e.target = true →
      ∃ c, e.label.first? = some c ∧ Code.isMarker c = true) :
    ∃ h report, g.resolve mode start = .ok (h, report) := by
  by_cases hmode : mode = .off
  · subst hmode
    exact ⟨g, _, rfl⟩
  · have htoken : ∀ i, ∃ token, g.endingToken i = .ok token := fun i =>
      exists_foldlM_eq_ok (fun token e he => by
        split
        · rename_i hfinal
          obtain ⟨c, hfirst, hmarker⟩ := hmarkers i e he hfinal
          rw [hfirst]
          simp only [hmarker, if_true]
          exact ⟨_, rfl⟩
        · exact ⟨token, rfl⟩) unknownToken
    obtain ⟨tokens, htokens⟩ : ∃ tokens, g.endingTokens (g.topologicalOrder start) = .ok tokens :=
      exists_foldlM_eq_ok (fun tokens i _ => by
        obtain ⟨token, htoken⟩ := htoken i
        rw [htoken]
        exact ⟨_, rfl⟩) _
    rw [resolve_eq hmode, htokens]
    exact ⟨_, _, rfl⟩

theorem edges_filtered :
    (g.filtered order tokens precedence).edges i =
      if i ∈ order ∧ i < g.size then (g.keptEdges tokens precedence i).map g.trimLabel
      else g.edges i :=
  edges_foldl_setEdges _ _

theorem isFinal_filtered : (g.filtered order tokens precedence).isFinal i = g.isFinal i :=
  isFinal_foldl_setEdges _ _

theorem size_filtered : (g.filtered order tokens precedence).size = g.size :=
  size_foldl_setEdges _ _

/-- Where nothing is given up and nothing trimmed, nothing changes. -/
theorem filtered_eq_self (hreport : (g.filterReport order tokens precedence).modified = false) :
    g.filtered order tokens precedence = g := by
  have hnone : (order.flatMap (g.shadowedEdges tokens precedence)).length = 0 ∧
      (order.flatMap fun i => (g.keptEdges tokens precedence i).filter g.isTrimmable).length = 0 := by
    simpa [filterReport, FilterReport.modified] using hreport
  simp only [List.length_eq_zero_iff, List.flatMap_eq_nil_iff] at hnone
  obtain ⟨hshadowed, htrimmable⟩ := hnone
  refine eq_of_edges_eq size_filtered (fun _ => isFinal_filtered) fun i => ?_
  rw [edges_filtered]
  split
  · rename_i hi
    have hkept : g.keptEdges tokens precedence i = g.edges i := by
      have hnot := List.filter_eq_nil_iff.mp (hshadowed i hi.1)
      refine List.filter_eq_self.mpr fun e he => ?_
      rw [Bool.not_eq_true']
      exact Bool.eq_false_iff.mpr (hnot e he)
    have hnot := List.filter_eq_nil_iff.mp (htrimmable i hi.1)
    rw [hkept] at hnot ⊢
    calc (g.edges i).map g.trimLabel
        = (g.edges i).map id := List.map_congr_left fun e he =>
          trimLabel_of_not_isTrimmable (Bool.eq_false_iff.mpr (hnot e he))
      _ = g.edges i := List.map_id _
  · rfl

/-- Resolving priorities only gives up edges and trims labels. -/
theorem filtered_of_resolve (hresolve : g.resolve mode start = .ok (h, report)) :
    Filtered g h := by
  by_cases hmode : mode = .off
  · subst hmode
    cases hresolve
    exact (Trimmed.refl g).filtered
  · obtain ⟨tokens, -, rfl, -⟩ := exists_filtered_of_resolve hmode hresolve
    exact
      { size_eq := size_filtered
        isFinal_eq := fun _ => isFinal_filtered
        edges_eq := fun i => by
          rw [edges_filtered]
          split
          · refine ⟨_, fun e hfinal => ?_, Or.inr rfl⟩
            simp [isShadowed, hfinal]
          · refine ⟨fun _ => true, fun _ _ => rfl, Or.inl ?_⟩
            rw [List.filter_true] }

/-- Unless in declaration order, resolving priorities only trims labels. -/
theorem trimmed_of_resolve (hmode : mode ≠ .declarationOrder)
    (hresolve : g.resolve mode start = .ok (h, report)) : Trimmed g h := by
  by_cases hoff : mode = .off
  · subst hoff
    cases hresolve
    exact Trimmed.refl g
  · obtain ⟨tokens, -, rfl, -⟩ := exists_filtered_of_resolve hoff hresolve
    exact
      { size_eq := size_filtered
        isFinal_eq := fun _ => isFinal_filtered
        edges_eq := fun i => by
          rw [edges_filtered, precedenceIn, if_neg hmode, keptEdges_unknown]
          split
          · exact Or.inr rfl
          · exact Or.inl rfl }

/-- Without a report of changes the result is the graph. -/
theorem eq_of_resolve (hresolve : g.resolve mode start = .ok (h, report))
    (hreport : report.modified = false) : h = g := by
  by_cases hmode : mode = .off
  · subst hmode
    cases hresolve
    rfl
  · obtain ⟨tokens, -, rfl, rfl⟩ := exists_filtered_of_resolve hmode hresolve
    exact filtered_eq_self hreport

/-- When priorities count, one code is left on the edges into final states from where the
start leads to. -/
theorem exists_eq_single_of_resolve (hmode : mode ≠ .off) (hclosed : g.Closed)
    (hresolve : g.resolve mode start = .ok (h, report)) (hi : Leads g.successors start i)
    (he : e ∈ h.edges i) (hfinal : g.isFinal e.target = true) (hlabel : ∃ c, c ∈ e.label) :
    ∃ c, e.label = CodeSet.single c := by
  obtain ⟨tokens, -, rfl, -⟩ := exists_filtered_of_resolve hmode hresolve
  have horder := (mem_topologicalOrder_iff hclosed).mpr hi
  have hlt : i < g.size := by
    have hlt := lt_size_of_mem_edges he
    rwa [size_filtered] at hlt
  rw [edges_filtered, if_pos ⟨horder, hlt⟩] at he
  obtain ⟨f, -, rfl⟩ := List.mem_map.mp he
  obtain ⟨htarget, hsub⟩ := g.trimLabel_spec f
  obtain ⟨c, hc⟩ := hlabel
  obtain ⟨first, hfirst, -⟩ := CodeSet.exists_first?_of_mem (hsub c hc)
  exact ⟨first, label_trimLabel (htarget ▸ hfinal) hfirst⟩

end Graph
end Munch

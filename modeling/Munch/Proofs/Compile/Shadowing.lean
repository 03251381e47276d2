import Munch.Proofs.Compile.Build
import Munch.Proofs.Compile.Precedence

/-!
# What declaration order gives up

In declaration order an edge goes when its token is defined before the precedence of the
state that it leaves.  States do not know words, so what is given up is decided for all
words at once that lead to a state.  In terms of words alone: two words are alike when the
same tokens match after every continuation of them, and a step to a token is given up
exactly when some token defined later has been recognized along every word that is alike.

Main results:

- Theorem {lit}`Graph.Exact.path_iff_alike`: alike words are those that lead to one state.
- Theorem {lit}`Graph.Exact.path_resolved_iff`: the words that can still be read.
- Theorem {lit}`Graph.Exact.accepts_rebuilt_iff`: what is accepted in the end.
-/

namespace Munch

/-! ## Words that are alike -/

/-- Two words after which the same tokens match.  The empty word is like no other. -/
def Alike (tokens : Int → Language Int) (u v : List Int) : Prop :=
  (u = [] ↔ v = []) ∧ ∀ id x, u ++ x ∈ tokens id ↔ v ++ x ∈ tokens id

/-- No beginning of a word is a word of a token after `limit`. -/
def StaysBelow (tokens : Int → Language Int) (limit : Int) (v : List Int) : Prop :=
  ∀ u, u <+: v → ∀ id, u ∈ tokens id → id ≤ limit

/-- Each step of a word to some token stays: some word like the one before the step stays
below that token. -/
def Survives (tokens : Int → Language Int) (s : List Int) : Prop :=
  ∀ u c, u ++ [c] <+: s → ∀ id, IsGreatest {k | u ++ [c] ∈ tokens k} id →
    ∃ v, Alike tokens u v ∧ StaysBelow tokens id v

variable {tokens : Int → Language Int} {u v s : List Int} {c id : Int}

theorem Alike.refl (tokens : Int → Language Int) (u : List Int) : Alike tokens u u :=
  ⟨Iff.rfl, fun _ _ => Iff.rfl⟩

theorem Alike.symm (halike : Alike tokens u v) : Alike tokens v u :=
  ⟨halike.1.symm, fun id x => (halike.2 id x).symm⟩

theorem survives_nil : Survives tokens [] := by
  intro u c hu
  have hnil := List.prefix_nil.mp hu
  simp at hnil

theorem survives_concat : Survives tokens (s ++ [c]) ↔ Survives tokens s ∧
    ∀ id, IsGreatest {k | s ++ [c] ∈ tokens k} id →
      ∃ v, Alike tokens s v ∧ StaysBelow tokens id v := by
  constructor
  · intro hsurvives
    refine ⟨fun u d hu => ?_, hsurvives s c (List.prefix_refl _)⟩
    exact hsurvives u d (hu.trans (List.prefix_append s [c]))
  · rintro ⟨hbefore, hlast⟩ u d hu
    rcases List.prefix_concat_iff.mp hu with heq | hu
    · obtain ⟨rfl, hd⟩ := List.append_inj' heq rfl
      obtain rfl := List.singleton_inj.mp hd
      exact hlast
    · exact hbefore u d hu

namespace Graph

/-- A graph in standard form that accepts exactly the words of tokens with their markers. -/
structure Exact (g : Graph) (tokens : Int → Language Int) (count : Nat) : Prop where
  standard : g.Standard
  wellFormed : g.WellFormed count
  haveMarkers : HaveMarkers tokens
  accepts_iff : ∀ u id, g.Accepts 0 (u ++ [Code.marker id]) ↔ u ∈ tokens id

variable {g h : Graph} {count : Nat} {i j : Nat} {e : Edge} {report : FilterReport}

namespace Exact

variable (hg : g.Exact tokens count)
include hg

theorem sound : g.Sound tokens := by
  intro w haccepts
  obtain ⟨u, -, n, -, rfl⟩ := hg.wellFormed.endsInMarkers w haccepts
  exact ⟨n, u, (hg.accepts_iff u n).mp haccepts, rfl⟩

/-- The tokens of a state are those of the words that lead to it. -/
theorem accepts_marker_iff_mem (hpath : g.Path 0 u i) :
    g.Accepts i [Code.marker id] ↔ u ∈ tokens id := by
  rw [← hg.wellFormed.accepts_marker_iff_of_path hpath, hg.accepts_iff]

/-- Words that lead to one state are alike. -/
theorem alike_of_path (hu : g.Path 0 u i) (hv : g.Path 0 v i) : Alike tokens u v := by
  have hdet := hg.standard.deterministic
  have hnil : ∀ {u v}, g.Path 0 u i → g.Path 0 v i → u = [] → v = [] := by
    intro u v hu hv hnil
    by_contra hne
    have hi := hg.standard.pos_of_path hne hv
    subst hnil
    rw [hdet.path_nil_iff.mp hu] at hi
    exact absurd hi (Nat.lt_irrefl 0)
  refine ⟨⟨hnil hu hv, hnil hv hu⟩, fun id x => ?_⟩
  rw [← hg.accepts_iff, ← hg.accepts_iff, List.append_assoc, List.append_assoc,
    hdet.accepts_append_iff hu, hdet.accepts_append_iff hv]

/-- What is accepted behind a word is accepted behind every word like it. -/
theorem accepts_of_alike (halike : Alike tokens u v) (hfinal : g.isFinal i = false)
    (hu : g.Path 0 u i) {w : List Int} (haccepts : g.Accepts i w) : g.Accepts 0 (v ++ w) := by
  have hne : w ≠ [] := by
    rintro rfl
    rw [hg.standard.deterministic.accepts_nil_iff, hfinal] at haccepts
    cases haccepts
  obtain ⟨-, x, -, n, -, rfl⟩ := hg.wellFormed.endsInMarkers.split hu haccepts hne
  have hboth := Accepts.of_path hu haccepts
  rw [← List.append_assoc, hg.accepts_iff] at hboth
  rw [← List.append_assoc, hg.accepts_iff]
  exact (halike.2 _ _).mp hboth

/-- Alike words are those that lead to one state. -/
theorem path_iff_alike (hfinal : g.isFinal i = false) (hu : g.Path 0 u i) :
    g.Path 0 v i ↔ Alike tokens u v := by
  refine ⟨hg.alike_of_path hu, fun halike => ?_⟩
  have hdet := hg.standard.deterministic
  by_cases hnil : u = []
  · rw [halike.1.mp hnil]
    rwa [hnil] at hu
  · have hi := hg.standard.closed.lt_of_path hg.standard.pos hu
    have hipos := hg.standard.pos_of_path hnil hu
    obtain ⟨w, -, hw⟩ := hg.standard.live i hi hipos
    obtain ⟨j, hv, hjw⟩ := accepts_append_iff.mp (hg.accepts_of_alike halike hfinal hu hw)
    have hj := hg.standard.closed.lt_of_path hg.standard.pos hv
    have hjpos := hg.standard.pos_of_path (mt halike.1.mpr hnil) hv
    have hjfinal : g.isFinal j = false := by
      refine Bool.eq_false_iff.mpr fun hj => ?_
      rw [hg.standard.eq_nil_of_accepts_final hg.wellFormed.endsInMarkers hj hjw,
        hdet.accepts_nil_iff, hfinal] at hw
      cases hw
    -- The two states accept the same words, so they are one.
    have hsame : g.Equivalent i j := fun w _ =>
      ⟨fun hw => (hdet.accepts_append_iff hv).mp (hg.accepts_of_alike halike hfinal hu hw),
        fun hw => (hdet.accepts_append_iff hu).mp (hg.accepts_of_alike halike.symm hjfinal hv hw)⟩
    rw [hg.standard.distinct i hi j hj hipos hjpos hsame]
    exact hv

/-! ## Precedences and words -/

section Precedence

variable {values : Array Int} (hvalues : g.endingTokens (g.topologicalOrder 0) = .ok values)
include hvalues

/-- The precedence of a state that a word leads to is at most some token when a word like it
stays below that token. -/
theorem precedence_le_iff_alike (hfinal : g.isFinal i = false) (hu : g.Path 0 u i)
    (hlow : unknownToken ≤ id) (hhigh : id < noToken) :
    (g.precedence values 0)[i]?.getD noToken ≤ id ↔
      ∃ v, Alike tokens u v ∧ StaysBelow tokens id v := by
  have hi := hg.standard.closed.lt_of_path hg.standard.pos hu
  rw [precedence_le_iff hg.standard.closed (size_of_endingTokens hvalues) hg.standard.pos hi
    hhigh, hg.wellFormed.leads_stepsBelow_iff hvalues hlow hfinal]
  simp only [hg.path_iff_alike hfinal hu, hg.accepts_iff, StaysBelow]

/-- An edge on a character is given up when it leads to a token below which no word stays that
is like one that leads to it. -/
theorem isShadowed_eq_false_iff (he : e ∈ g.edges i) (hc : c ∈ e.label)
    (hchar : c ∈ CodeSet.chars) (hu : g.Path 0 u i) :
    g.isShadowed values ((g.precedence values 0)[i]?.getD noToken) e = false ↔
      ∀ id, IsGreatest {k | u ++ [c] ∈ tokens k} id →
        ∃ v, Alike tokens u v ∧ StaysBelow tokens id v := by
  have hwell := hg.wellFormed
  have hlonger := hu.append (Path.of_edge he hc (hwell.deterministic.ne_silent he hc))
  have hfinal := hwell.isFinal_eq_false_of_mem_chars he hc hchar
  have hsource : g.isFinal i = false := by
    refine Bool.eq_false_iff.mpr fun hi => ?_
    rw [hwell.edges_final i hi] at he
    cases he
  simp only [← hg.accepts_marker_iff_mem hlonger, isShadowed, hfinal, Bool.not_false,
    Bool.true_and, decide_eq_false_iff_not]
  rcases hwell.tokenAt_spec hvalues (hwell.closed i e he) with ⟨hunknown, hnone⟩ | ⟨hlow, hgreatest⟩
  · refine iff_of_true ?_ fun id hid => absurd hid.1 (hnone id)
    rw [hunknown]
    exact fun hknown => absurd hknown.1 (by decide)
  · have hmem : u ++ [c] ∈ tokens (tokenAt values e.target) :=
      (hg.accepts_marker_iff_mem hlonger).mp hgreatest.1
    have hhigh : tokenAt values e.target < noToken := by
      have hle := (hg.haveMarkers _ _ hmem).2.2
      unfold maxTokenId at hle
      unfold noToken Code.charLimit
      omega
    have hprecedence := hg.precedence_le_iff_alike hvalues hsource hu
      (Int.le_trans (by decide) hlow) hhigh
    constructor
    · intro hkept id hid
      rw [hid.unique hgreatest]
      exact hprecedence.mp (by omega)
    · intro hkept
      have hle := hprecedence.mpr (hkept _ hgreatest)
      omega

end Precedence

/-! ## The graph with priorities resolved -/

section Resolved

variable (hresolve : g.resolve .declarationOrder 0 = .ok (h, report))
include hresolve

omit hg in
/-- The edges that stay are those that are not given up, with trimmed labels. -/
theorem exists_mem_edges_iff (hwell : g.WellFormed count) :
    ∃ values, g.endingTokens (g.topologicalOrder 0) = .ok values ∧ ∀ i f,
      f ∈ h.edges i ↔ ∃ e ∈ g.edges i,
        g.isShadowed values ((g.precedence values 0)[i]?.getD noToken) e = false ∧
          g.trimLabel e = f := by
  obtain ⟨values, hvalues, rfl, -⟩ := exists_filtered_of_resolve (by decide) hresolve
  refine ⟨values, hvalues, fun i f => ?_⟩
  rw [edges_filtered]
  split
  · simp [keptEdges, precedenceIn, and_assoc]
  · rename_i hout
    have hnone : g.edges i = [] :=
      edges_eq_nil_of_size_le (Nat.not_lt.mp fun hi => hout ⟨hwell.mem_topologicalOrder hi, hi⟩)
    simp [hnone]

/-- The words that can still be read are those of which no step was given up. -/
theorem path_resolved_iff (hchars : ∀ c ∈ s, c ∈ CodeSet.chars) :
    h.Path 0 s i ↔ g.Path 0 s i ∧ Survives tokens s := by
  obtain ⟨values, hvalues, hedges⟩ := exists_mem_edges_iff hresolve hg.wellFormed
  have hdet := hg.wellFormed.deterministic
  have hdet' := (filtered_of_resolve hresolve).deterministic hdet
  induction s using List.reverseRecOn generalizing i with
  | nil =>
    rw [hdet.path_nil_iff, hdet'.path_nil_iff]
    exact ⟨fun hi => ⟨hi, survives_nil⟩, fun hi => hi.1⟩
  | append_singleton s c ih =>
    obtain ⟨hbefore, hlast⟩ := List.forall_mem_append.mp hchars
    have hchar := List.forall_mem_singleton.mp hlast
    rw [path_append_iff, path_append_iff, survives_concat]
    constructor
    · rintro ⟨j, hfirst, hsecond⟩
      obtain ⟨hpath, hsurvives⟩ := (ih hbefore).mp hfirst
      obtain ⟨f, hf, hcf, hne, hnil⟩ := hdet'.path_cons_iff.mp hsecond
      obtain ⟨e, he, hkept, rfl⟩ := (hedges j f).mp hf
      obtain ⟨htarget, hsub⟩ := g.trimLabel_spec e
      rw [htarget, hdet'.path_nil_iff] at hnil
      subst hnil
      have hc := hsub c hcf
      exact ⟨⟨j, hpath, Path.of_edge he hc hne⟩, hsurvives,
        (hg.isShadowed_eq_false_iff hvalues he hc hchar hpath).mp hkept⟩
    · rintro ⟨⟨j, hfirst, hsecond⟩, hsurvives, hstep⟩
      obtain ⟨e, he, hc, hne, hnil⟩ := hdet.path_cons_iff.mp hsecond
      obtain rfl := hdet.path_nil_iff.mp hnil
      have hkept := (hg.isShadowed_eq_false_iff hvalues he hc hchar hfirst).mpr hstep
      have hfinal := hg.wellFormed.isFinal_eq_false_of_mem_chars he hc hchar
      have hf := (hedges j e).mpr ⟨e, he, hkept, trimLabel_of_isFinal_eq_false hfinal⟩
      exact ⟨j, (ih hbefore).mpr ⟨hfirst, hsurvives⟩, Path.of_edge hf hc hne⟩

/-- Of the tokens of a state the largest one is left. -/
theorem accepts_marker_resolved_iff :
    h.Accepts i [Code.marker id] ↔ IsGreatest {k | g.Accepts i [Code.marker k]} id := by
  obtain ⟨values, -, hedges⟩ := exists_mem_edges_iff hresolve hg.wellFormed
  have hwell := hg.wellFormed
  have hfiltered := filtered_of_resolve hresolve
  have hdet' := hfiltered.deterministic hwell.deterministic
  constructor
  · rintro ⟨j, hpath, hfinal⟩
    obtain ⟨f, hf, hc, -, hnil⟩ := hdet'.path_cons_iff.mp hpath
    obtain rfl := hdet'.path_nil_iff.mp hnil
    obtain ⟨e, he, -, rfl⟩ := (hedges i f).mp hf
    rw [hfiltered.isFinal_eq, (g.trimLabel_spec e).1] at hfinal
    obtain ⟨n, -, hfirst⟩ := hwell.exists_first?_eq_marker he hfinal
    rw [label_trimLabel hfinal hfirst, CodeSet.mem_single] at hc
    rw [Code.marker_injective hc]
    exact hwell.isGreatest_of_first? he hfinal hfirst
  · intro hgreatest
    obtain ⟨e, he, hfinal, -⟩ := hwell.accepts_marker_iff.mp hgreatest.1
    obtain ⟨n, -, hfirst⟩ := hwell.exists_first?_eq_marker he hfinal
    obtain rfl := (hwell.isGreatest_of_first? he hfinal hfirst).unique hgreatest
    have hkept : g.isShadowed values ((g.precedence values 0)[i]?.getD noToken) e = false := by
      simp [isShadowed, hfinal]
    have hf := (hedges i _).mpr ⟨e, he, hkept, rfl⟩
    have hc : Code.marker n ∈ (g.trimLabel e).label := by
      rw [label_trimLabel hfinal hfirst]
      exact CodeSet.mem_single.mpr rfl
    refine ⟨_, Path.of_edge hf hc (hdet'.ne_silent hf hc), ?_⟩
    rw [hfiltered.isFinal_eq, (g.trimLabel_spec e).1]
    exact hfinal

/-- What is accepted when priorities are resolved. -/
theorem accepts_resolved_iff :
    h.Accepts 0 (s ++ [Code.marker id]) ↔
      IsGreatest {k | s ∈ tokens k} id ∧ Survives tokens s := by
  constructor
  · intro haccepts
    have hmem := (hg.accepts_iff s id).mp ((filtered_of_resolve hresolve).accepts haccepts)
    obtain ⟨i, hpath, hmarker⟩ := accepts_append_iff.mp haccepts
    obtain ⟨hpath', hsurvives⟩ :=
      (hg.path_resolved_iff hresolve (hg.haveMarkers _ _ hmem).1).mp hpath
    have hgreatest := (hg.accepts_marker_resolved_iff hresolve).mp hmarker
    simp only [hg.accepts_marker_iff_mem hpath'] at hgreatest
    exact ⟨hgreatest, hsurvives⟩
  · rintro ⟨hgreatest, hsurvives⟩
    have haccepts := (hg.accepts_iff s id).mpr hgreatest.1
    obtain ⟨i, hpath, -⟩ := accepts_append_iff.mp haccepts
    have hpath' := (hg.path_resolved_iff hresolve (hg.haveMarkers _ _ hgreatest.1).1).mpr
      ⟨hpath, hsurvives⟩
    refine Accepts.of_path hpath' ((hg.accepts_marker_resolved_iff hresolve).mpr ?_)
    simpa only [hg.accepts_marker_iff_mem hpath] using hgreatest

/-- Making the graph minimal again changes nothing of that. -/
theorem accepts_rebuilt_iff :
    (h.rebuilt report).Accepts 0 (s ++ [Code.marker id]) ↔
      IsGreatest {k | s ∈ tokens k} id ∧ Survives tokens s := by
  rw [← hg.accepts_resolved_iff hresolve]
  cases hreport : report.modified with
  | false => rw [rebuilt_of_not_modified hreport]
  | true =>
    have hfollows := follows_minimal (closed_of_resolve hg.standard hresolve)
      (pos_of_resolve hg.standard hresolve)
    have hsound := hg.sound.mono fun _ => (filtered_of_resolve hresolve).accepts
    rw [rebuilt_of_modified hreport]
    exact ⟨hfollows.accepts, hfollows.accepts_marker hsound hg.haveMarkers⟩

end Resolved
end Exact

/-- The minimal automaton of a graph that accepts exactly the words of tokens with their
markers does so, too. -/
theorem exact_minimal (hclosed : g.Closed) (hpos : 0 < g.size) (hmarkers : HaveMarkers tokens)
    (hcount : ∀ id, ∀ u ∈ tokens id, id < count)
    (haccepts : ∀ w, g.Accepts 0 w ↔ ∃ id, w ∈ marked id (tokens id)) :
    (g.minimal 0).Exact tokens count := by
  have hstd := standard_minimal hclosed hpos
  have hfollows := follows_minimal hclosed hpos
  have hsound : g.Sound tokens := fun w hw => (haccepts w).mp hw
  have hsound' : (g.minimal 0).Sound tokens := hsound.mono fun _ => hfollows.accepts
  refine ⟨hstd, hstd.wellFormed (hsound'.endsInMarkers hmarkers hcount), hmarkers, fun u id => ?_⟩
  exact ⟨hsound'.mem_of_accepts, fun hu =>
    hfollows.accepts_marker hsound hmarkers ((haccepts _).mpr ⟨id, u, hu, rfl⟩)⟩

end Graph

end Munch

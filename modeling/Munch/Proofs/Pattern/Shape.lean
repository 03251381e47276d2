import Munch.Proofs.Pattern.ClassGrammar
import Munch.Proofs.Pattern.Compiled

/-!
# The shape of compiled patterns

Whatever is made of fragments relies on their shape: no state accepts, nothing leads out of
the exit, every edge can be taken, and no state is there without being of use.  Quantifiers put
edges on exits, and complements bring states that nothing leads to, so the shape is not that of
the graph on the way.  There only the exit of a part is free of edges when the part is done.

Main results:

- Theorem {lit}`Pattern.labels_nonempty`: every label that is read has a code.
- Theorem {lit}`Pattern.passable_assemble`: every edge of an assembled pattern can be taken.
- Theorem {lit}`Fragment.Proper.reached_fragmentAt`: the part between two ends is reached.
- Theorem {lit}`compilePattern_shape`: the shape of a compiled pattern, and the exits of its
  parts.
-/

namespace Munch

/-! ## Labels that are read -/

namespace Pattern

open Grammar

/-- No escape stands for nothing. -/
theorem exists_mem_of_escape {s rest : List Char} {set : CodeSet} (h : Escape s set rest) :
    ∃ c, c ∈ set := by
  have hsingle : ∀ c, ∃ d, d ∈ CodeSet.single c := fun c => ⟨c, CodeSet.mem_single.mpr rfl⟩
  cases h with
  | digits => exact ⟨48, by decide⟩
  | word => exact ⟨48, by decide +kernel⟩
  | named => exact hsingle _
  | byte _ hcode =>
    obtain ⟨ns, -, -, rfl⟩ := hcode
    exact hsingle _
  | zeroByte _ hcode =>
    obtain ⟨ns, -, -, rfl⟩ := hcode
    exact hsingle _
  | unit _ hcode =>
    obtain ⟨ns, -, -, rfl⟩ := hcode
    exact hsingle _
  | itself => exact hsingle _

/-- No single code stands for nothing. -/
theorem exists_mem_of_single {inClass : Bool} {s rest : List Char} {set : CodeSet}
    (h : Single inClass s set rest) : ∃ c, c ∈ set := by
  cases h with
  | escaped hescape => exact exists_mem_of_escape hescape
  | literal => exact ⟨_, CodeSet.mem_single.mpr rfl⟩

/-- Every label that is read has a code. -/
theorem labels_nonempty : Labels fun label => ∃ c, c ∈ label where
  yields_class s := by
    refine (yields_class_derived s).mono ?_
    rintro r ⟨codes, -, hcodes, c, hc⟩
    exact ⟨c, (hcodes c).mpr hc⟩
  yields_code s := (yields_code_derived false s).mono fun _ => exists_mem_of_single

end Pattern

/-! ## Edges that can be taken -/

namespace Graph

/-- Every edge can be taken on some code. -/
def Passable (g : Graph) : Prop := ∀ i, ∀ e ∈ g.edges i, ∃ c, c ∈ e.label

variable {g h : Graph} {s t : Nat} {label : CodeSet}

/-- Without edges all edges can be passed. -/
theorem passable_empty : empty.Passable := by
  intro i e he
  rw [edges_eq_nil_of_size_le (Nat.zero_le i)] at he
  cases he

theorem exists_mem_silent : ∃ c, c ∈ CodeSet.silent :=
  ⟨Code.silent, CodeSet.mem_silent.mpr rfl⟩

namespace Passable

/-- A new state has no edges. -/
theorem addState (hg : g.Passable) (b : Bool) : (g.addState b).Passable :=
  fun i e he => hg i e (edges_addState g b i ▸ he)

/-- A new edge can be passed when its label holds a code. -/
theorem addEdge (hg : g.Passable) (hlabel : ∃ c, c ∈ label) (s t : Nat) :
    (g.addEdge s label t).Passable := by
  intro i e he
  rcases mem_edges_of_mem_addEdge he with hold | ⟨-, rfl⟩
  · exact hg i e hold
  · exact hlabel

theorem addSilent (hg : g.Passable) (s t : Nat) : (g.addSilent s t).Passable :=
  hg.addEdge exists_mem_silent s t

/-- What is copied can be passed as before. -/
theorem copyInto (hg : g.Passable) (hh : h.Passable) (roots : List Nat) :
    (g.copyInto roots h).1.Passable := by
  intro j e he
  by_cases hlow : j < h.size
  · exact hh j e (edges_copyInto_of_lt hlow ▸ he)
  · obtain ⟨i, hi, rfl⟩ := exists_eq_copyInto_name h (Nat.not_lt.mp hlow) (lt_size_of_mem_edges he)
    rw [edges_copyInto_name hi] at he
    obtain ⟨f, hf, rfl⟩ := List.mem_map.mp he
    exact hg i f hf

theorem spliceInto {f : Fragment} (hf : f.graph.Passable) (hg : g.Passable) :
    (f.spliceInto g).1.Passable :=
  hf.copyInto hg _

/-- So can what is turned round. -/
theorem turnedRound (hg : g.Passable) : g.turnedRound.Passable := by
  intro i e he
  rcases mem_edges_turnedRound_iff.mp he with hold | ⟨-, -, -, hsilent | ⟨hcode, -⟩⟩
  · exact hg i e hold
  · exact hsilent ▸ exists_mem_silent
  · exact hcode

theorem chain (hg : g.Passable) (a b : Ends) : (g.chain a b).1.Passable :=
  hg.addSilent _ _

theorem branch (hg : g.Passable) (a b : Ends) : (g.branch a b).1.Passable :=
  (((((hg.addState false).addState false).addSilent _ _).addSilent _ _).addSilent _ _).addSilent _ _

theorem iterate (hg : g.Passable) (a : Ends) (how : Repetition) :
    (g.iterate a how).1.Passable := by
  have hbypass : (g.bypass a how).Passable := by
    cases how with
    | zeroOrMore => exact (hg.addSilent _ _).addSilent _ _
    | oneOrMore => exact hg.addSilent _ _
    | optional => exact hg.addSilent _ _
  rw [Graph.iterate, freeExit]
  split
  · exact hbypass
  · exact (hbypass.addState false).addSilent _ _

end Passable
end Graph

namespace Pattern

variable {p : Pattern Fragment} {g : Graph}

/-- A prefix complement is made from a deterministic automaton, whatever the edges of the part
were. -/
theorem passable_prefixComplement {a : Ends} (hproper : (g.fragmentAt a).Proper) :
    (g.prefixComplement a).graph.Passable :=
  Graph.Passable.turnedRound hproper.trim_automaton.deterministic.nonempty

/-- Every edge of an assembled pattern can be taken. -/
theorem passable_assemble (hp : p.Over Fragment.Proper)
    (hlabels : p.Throughout (fun label => ∃ c, c ∈ label) fun f => f.graph.Passable)
    (hplain : g.Plain) (hg : g.Passable) : (p.assemble g).1.Passable := by
  induction p generalizing g with
  | codes label => exact ((hg.addState false).addState false).addEdge hlabels _ _
  | reference f => exact Graph.Passable.spliceInto hlabels hg
  | sequence p q ihp ihq =>
    have hfirst := ihp hp.1 hlabels.1 hplain hg
    exact (ihq hp.2 hlabels.2 (glued_assemble hp.1 hplain).plain hfirst).chain _ _
  | choice p q ihp ihq =>
    have hfirst := ihp hp.1 hlabels.1 hplain hg
    exact (ihq hp.2 hlabels.2 (glued_assemble hp.1 hplain).plain hfirst).branch _ _
  | repeated p how ih => exact (ih hp hlabels hplain hg).iterate _ how
  | complement p ih =>
    have hpart := glued_assemble (p := p) hp hplain
    have hturned := passable_prefixComplement (Fragment.proper_of_glued hpart.fragmentAt)
    exact hturned.spliceInto (ih hp hlabels hplain hg)

/-! ## Parts on the way -/

/-- The patterns that are assembled on the way, each with the graph that it is added to. -/
def stages : Pattern Fragment → Graph → List (Pattern Fragment × Graph)
  | codes label, g => [(codes label, g)]
  | reference f, g => [(reference f, g)]
  | sequence p q, g => (sequence p q, g) :: (p.stages g ++ q.stages (p.assemble g).1)
  | choice p q, g => (choice p q, g) :: (p.stages g ++ q.stages (p.assemble g).1)
  | repeated p how, g => (repeated p how, g) :: p.stages g
  | complement p, g => (complement p, g) :: p.stages g

/-- They are the pattern and all patterns in it. -/
theorem map_fst_stages (p : Pattern Fragment) (g : Graph) :
    (p.stages g).map Prod.fst = p.subpatterns := by
  induction p generalizing g with
  | codes label => rfl
  | reference f => rfl
  | sequence p q ihp ihq =>
    rw [stages, subpatterns, List.map_cons, List.map_append, ihp, ihq]
  | choice p q ihp ihq =>
    rw [stages, subpatterns, List.map_cons, List.map_append, ihp, ihq]
  | repeated p how ih => rw [stages, subpatterns, List.map_cons, ih]
  | complement p ih => rw [stages, subpatterns, List.map_cons, ih]

/-- Every stage of assembling starts from a plain graph. -/
theorem plain_of_mem_stages {stage : Pattern Fragment × Graph} (hp : p.Over Fragment.Proper)
    (hplain : g.Plain) (hstage : stage ∈ p.stages g) : stage.2.Plain := by
  induction p generalizing g with
  | codes label => exact List.mem_singleton.mp hstage ▸ hplain
  | reference f => exact List.mem_singleton.mp hstage ▸ hplain
  | sequence p q ihp ihq =>
    rcases List.mem_cons.mp hstage with rfl | hstage
    · exact hplain
    · rcases List.mem_append.mp hstage with hstage | hstage
      · exact ihp hp.1 hplain hstage
      · exact ihq hp.2 (glued_assemble hp.1 hplain).plain hstage
  | choice p q ihp ihq =>
    rcases List.mem_cons.mp hstage with rfl | hstage
    · exact hplain
    · rcases List.mem_append.mp hstage with hstage | hstage
      · exact ihp hp.1 hplain hstage
      · exact ihq hp.2 (glued_assemble hp.1 hplain).plain hstage
  | repeated p how ih =>
    rcases List.mem_cons.mp hstage with rfl | hstage
    · exact hplain
    · exact ih hp hplain hstage
  | complement p ih =>
    rcases List.mem_cons.mp hstage with rfl | hstage
    · exact hplain
    · exact ih hp hplain hstage

/-- Nothing leads out of the exit of a part when the part is done. -/
theorem edges_exit_of_mem_stages {stage : Pattern Fragment × Graph} (hp : p.Over Fragment.Proper)
    (hplain : g.Plain) (hstage : stage ∈ p.stages g) :
    (stage.1.assemble stage.2).1.edges (stage.1.assemble stage.2).2.exit = [] := by
  have hmem : stage.1 ∈ p.subpatterns := by
    rw [← map_fst_stages p g]
    exact List.mem_map_of_mem hstage
  have hstage' := plain_of_mem_stages hp hplain hstage
  exact (glued_assemble (hp.of_mem_subpatterns hmem) hstage').edges_exit

end Pattern

/-! ## Whole patterns -/

namespace Fragment

/-- What is relied on in a fragment. -/
structure WellShaped (f : Fragment) : Prop where
  isFinal_eq : ∀ i, f.graph.isFinal i = false
  edges_exit : f.graph.edges f.ends.exit = []
  exit_ne_entry : f.ends.exit ≠ f.ends.entry
  target_lt : ∀ i, ∀ e ∈ f.graph.edges i, e.target < f.graph.size
  label : ∀ i, ∀ e ∈ f.graph.edges i, e.label = CodeSet.silent ∨
    (∃ c, c ∈ e.label) ∧ ∀ c ∈ e.label, 0 ≤ c ∧ c < Code.charLimit
  reached : ∀ i < f.graph.size, i = f.ends.exit ∨
    Leads f.graph.successors f.ends.entry i

/-- Every state between two ends is the exit, or the entry leads to it. -/
theorem Proper.reached_fragmentAt {h : Graph} {a : Ends} (hproper : Proper ⟨h, a⟩) {i : Nat}
    (hi : i < (h.fragmentAt a).graph.size) :
    i = (h.fragmentAt a).ends.exit ∨
      Leads (h.fragmentAt a).graph.successors (h.fragmentAt a).ends.entry i := by
  have hclosed : h.Closed := hproper.plain.closed
  have hroots : ∀ r ∈ [a.entry, a.exit], r < h.size :=
    List.forall_mem_cons.mpr ⟨hproper.entry_lt, List.forall_mem_singleton.mpr hproper.exit_lt⟩
  obtain ⟨j, hj, rfl⟩ := Graph.exists_eq_copyInto_name Graph.empty (Nat.zero_le i) hi
  obtain ⟨r, hr, hleads⟩ := (Graph.mem_reachableFrom_iff hclosed hroots).mp hj
  rcases List.mem_cons.mp hr with rfl | hr
  · exact Or.inr (Graph.leads_copyInto_name Graph.empty hclosed hproper.entry_mem hleads)
  · obtain rfl := List.mem_singleton.mp hr
    left
    -- Nothing but the exit itself can be reached from it.
    rcases Relation.ReflTransGen.cases_head hleads with rfl | ⟨k, hstep, -⟩
    · rfl
    · obtain ⟨e, he, -⟩ := Graph.mem_successors_iff.mp hstep
      rw [hproper.edges_exit] at he
      cases he

end Fragment

namespace Pattern

variable {p : Pattern Fragment}

section Whole

variable (hp : p.Over Fragment.Proper)
  (hlabels : p.Throughout (fun label => ∃ c, c ∈ label) fun f => f.graph.Passable)
include hp hlabels

/-- All edges of the fragment of a pattern can be passed. -/
theorem passable_fragment : p.fragment.graph.Passable :=
  (passable_assemble hp hlabels Graph.plain_empty Graph.passable_empty).spliceInto
    Graph.passable_empty

/-- The fragment of a pattern is well shaped. -/
theorem wellShaped_fragment : p.fragment.WellShaped where
  isFinal_eq := (proper_fragment hp).plain.isFinal_eq
  edges_exit := (proper_fragment hp).edges_exit
  exit_ne_entry := (proper_fragment hp).entry_ne_exit.symm
  target_lt := (proper_fragment hp).plain.closed
  label i e he := by
    refine ((proper_fragment hp).plain.label i e he).imp id fun hchars => ?_
    exact ⟨passable_fragment hp hlabels i e he, fun c hc => CodeSet.mem_chars.mp (hchars c hc)⟩
  reached i hi :=
    (Fragment.proper_of_glued (glued_assemble hp Graph.plain_empty)).reached_fragmentAt hi

end Whole

end Pattern

/-! ## Compiled patterns -/

/-- The edges of compiled patterns can be taken. -/
theorem Compiled.passable {f : Fragment} (hcompiled : Compiled f) : f.graph.Passable := by
  induction hcompiled with
  | @intro table pattern f htable hcompile ih =>
    obtain ⟨p, hread, rfl⟩ := exists_pattern_of_compilePattern hcompile
    have hp := over_proper_of_read htable hread
    have hpassable := resolves_lookup (P := fun f => f.graph.Passable) ih
    exact Pattern.passable_fragment hp
      (Pattern.throughout_read Pattern.labels_nonempty hpassable hread)

namespace Pattern

/-- What a text starts with is read as a repeated atom, a sequence or a choice. -/
def ReadOn {ρ : Type} (resolve : String → Option ρ) (s : List Char) (p : Pattern ρ) : Prop :=
  (∃ r, repeatedAtom resolve s = .ok r ∧ r.value = p) ∨
    (∃ r, sequenceOf resolve s = .ok r ∧ r.value = p) ∨
      ∃ r, choices resolve s = .ok r ∧ r.value = p

/-- What is read from some place on has the property of what names are resolved to. -/
theorem ReadOn.over {ρ : Type} {P : ρ → Prop} {resolve : String → Option ρ} {s : List Char}
    {p : Pattern ρ} (hread : ReadOn resolve s p) (hresolve : Resolves P resolve) : p.Over P := by
  refine over_iff_throughout.mpr ?_
  rcases hread with ⟨r, hr, rfl⟩ | ⟨r, hr, rfl⟩ | ⟨r, hr, rfl⟩
  · exact yields_repeatedAtom labels_ofChars hresolve s r hr
  · exact yields_sequenceOf labels_ofChars hresolve s r hr
  · exact yields_choices labels_ofChars hresolve s r hr

end Pattern

/-- A pattern that is compiled against compiled ones is well shaped.  On the way every part is
put behind a plain graph, and when it is done nothing leads out of its exit; so it is with
whatever is read as a repeated atom, a sequence or a choice, also where the text fails later. -/
theorem compilePattern_shape {table : FragmentTable} (htable : ∀ entry ∈ table, Compiled entry.2)
    {pattern : String} {f : Fragment} (hcompile : compilePattern table pattern = .ok f) :
    f.WellShaped ∧
    (∃ p, Pattern.read table.lookup pattern = .ok p ∧ f = p.fragment ∧
      ∀ stage ∈ p.stages Graph.empty, stage.2.Plain ∧
        (stage.1.assemble stage.2).1.edges (stage.1.assemble stage.2).2.exit = []) ∧
    ∀ s p, Pattern.ReadOn table.lookup s p → ∀ g : Graph, g.Plain →
      (p.assemble g).1.Plain ∧ (p.assemble g).1.edges (p.assemble g).2.exit = [] := by
  have hproper := resolves_lookup fun entry hentry => (htable entry hentry).proper
  have hpassable := resolves_lookup (P := fun f => f.graph.Passable)
    fun entry hentry => (htable entry hentry).passable
  obtain ⟨p, hread, rfl⟩ := exists_pattern_of_compilePattern hcompile
  have hp := Pattern.over_read hproper hread
  have hlabels := Pattern.throughout_read Pattern.labels_nonempty hpassable hread
  refine ⟨Pattern.wellShaped_fragment hp hlabels, ⟨p, hread, rfl, fun stage hstage => ?_⟩, ?_⟩
  · exact ⟨Pattern.plain_of_mem_stages hp Graph.plain_empty hstage,
      Pattern.edges_exit_of_mem_stages hp Graph.plain_empty hstage⟩
  · intro s q hq g hplain
    have hglued := Pattern.glued_assemble (hq.over hproper) hplain
    exact ⟨hglued.plain, hglued.edges_exit⟩

/-- The text `[ac]+` as a pattern. -/
def letterRun : Pattern Fragment :=
  .repeated (.codes ((CodeSet.empty.union (CodeSet.single 97)).union (CodeSet.single 99)))
    .oneOrMore

/-- The run is read from its text. -/
theorem read_letterRun : Pattern.read (FragmentTable.lookup []) "[ac]+" = .ok letterRun := by
  decide +kernel

/-- The run is compiled from its text. -/
theorem compiled_letterRun : Compiled letterRun.fragment := by
  have hcompile : compilePattern [] "[ac]+" = .ok letterRun.fragment := by
    rw [compilePattern, read_letterRun]
    rfl
  exact Compiled.intro (fun entry hentry => absurd hentry List.not_mem_nil) hcompile

/-- The run matches a letter. -/
theorem letter_mem_letterRun : [97] ∈ letterRun.fragment.matched := by
  have hp : letterRun.Over Fragment.Proper :=
    over_proper_of_read (fun entry hentry => absurd hentry List.not_mem_nil) read_letterRun
  have hletter : [97] ∈ Pattern.oneCode
      ((CodeSet.empty.union (CodeSet.single 97)).union (CodeSet.single 99)) :=
    ⟨97, rfl, by decide +kernel⟩
  rw [Pattern.matched_fragment hp]
  exact Language.append_mem_mul hletter (Language.nil_mem_kstar _)

/-- The text `x?$W|^(ab)` as a pattern. -/
def mixed (f : Fragment) : Pattern Fragment :=
  .choice
    (.sequence (.repeated (.codes (CodeSet.single 120)) .optional) (.reference f))
    (.complement (.sequence (.codes (CodeSet.single 97)) (.codes (CodeSet.single 98))))

/-- The pattern is read from its text. -/
theorem read_mixed (f : Fragment) :
    Pattern.read (FragmentTable.lookup [("W", f)]) "x?$W|^(ab)" = .ok (mixed f) := by
  with_unfolding_all rfl

/-- A quantifier, a reference and a complement in one pattern, which matches a letter of the run
behind the optional one. -/
theorem compilePattern_shape_mixed :
    (∀ entry ∈ [("W", letterRun.fragment)], Compiled entry.2) ∧
      ∃ f, compilePattern [("W", letterRun.fragment)] "x?$W|^(ab)" = .ok f ∧ f.WellShaped ∧
        (∀ stage ∈ (mixed letterRun.fragment).stages Graph.empty,
          (stage.1.assemble stage.2).1.edges (stage.1.assemble stage.2).2.exit = []) ∧
        [120, 97] ∈ f.matched := by
  have htable : ∀ entry ∈ [("W", letterRun.fragment)], Compiled entry.2 :=
    List.forall_mem_singleton.mpr compiled_letterRun
  have hcompile : compilePattern [("W", letterRun.fragment)] "x?$W|^(ab)" =
      .ok (mixed letterRun.fragment).fragment := by
    rw [compilePattern, read_mixed]
    rfl
  obtain ⟨hshape, ⟨p, hread, -, hstages⟩, -⟩ := compilePattern_shape htable hcompile
  obtain rfl : mixed letterRun.fragment = p := Except.ok.inj ((read_mixed _).symm.trans hread)
  have hp : (mixed letterRun.fragment).Over Fragment.Proper := over_proper_of_read htable hread
  have hfirst : [120] ∈ (Pattern.repeated (.codes (CodeSet.single 120)) .optional).through :=
    Or.inl ⟨120, rfl, by decide⟩
  have hmatched : [120, 97] ∈ (mixed letterRun.fragment).fragment.matched := by
    rw [Pattern.matched_fragment hp]
    exact Or.inl (Language.append_mem_mul hfirst letter_mem_letterRun)
  exact ⟨htable, _, hcompile, hshape, fun stage hstage => (hstages stage hstage).2, hmatched⟩

end Munch

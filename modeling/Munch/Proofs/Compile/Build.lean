import Mathlib.Data.List.Permutation
import Munch.Proofs.Automaton.Rows
import Munch.Proofs.Compile.Numbering
import Munch.Proofs.Compile.Priorities

/-!
# Building automata

The graph that is built for some definitions is minimal in its language, so it has the
shape of the graph of a tokenizer, whatever the priorities.  Every check of it succeeds,
and building fails only when a token matches without input, is never recognized, or cannot
be named.

Main results:

- Theorem {lit}`exists_outcome`: the graph that is built, and how building ends.
- Theorem {lit}`recognizes_of_compile`: an automaton that was built recognizes the tokens
  of its definitions.
- Theorem {lit}`wellFormed_of_compileEntries`: building never reports a malformed
  automaton, and what it gives has the shape of the graph of a tokenizer.
-/

namespace Munch

variable {definitions : List TokenDefinition} {names : Array String}

/-! ## The graph -/

namespace Graph

variable {g h : Graph} {tokens : Int → Language Int} {count : Nat} {mode : PriorityMode}
  {report : FilterReport}

/-- A graph in which priorities were resolved, made minimal again if that changed it. -/
def rebuilt (g : Graph) (report : FilterReport) : Graph :=
  if report.modified then g.minimal 0 else g

/-- A graph the filter has modified is minimized again. -/
theorem rebuilt_of_modified (hreport : report.modified = true) : g.rebuilt report = g.minimal 0 :=
  if_pos hreport

/-- A graph the filter has not modified stays. -/
theorem rebuilt_of_not_modified (hreport : report.modified = false) : g.rebuilt report = g :=
  if_neg (by simp [hreport])

section Rebuilt

variable (hstd : g.Standard) (hresolve : g.resolve mode 0 = .ok (h, report))
include hstd hresolve

/-- Resolving keeps the graph closed. -/
theorem closed_of_resolve : h.Closed :=
  (filtered_of_resolve hresolve).closed hstd.closed

/-- Resolving keeps the start. -/
theorem pos_of_resolve : 0 < h.size := by
  rw [(filtered_of_resolve hresolve).size_eq]
  exact hstd.pos

/-- What was changed is made minimal again, and what was not still is. -/
theorem standard_rebuilt : (h.rebuilt report).Standard := by
  cases hreport : report.modified with
  | true =>
    rw [rebuilt_of_modified hreport]
    exact standard_minimal (closed_of_resolve hstd hresolve) (pos_of_resolve hstd hresolve)
  | false =>
    rw [rebuilt_of_not_modified hreport, eq_of_resolve hresolve hreport]
    exact hstd

/-- Minimizing again changes no token that is recognized. -/
theorem serves_rebuilt (hserves : h.Serves mode tokens) (htokens : HaveMarkers tokens) :
    (h.rebuilt report).Serves mode tokens := by
  cases hreport : report.modified with
  | true =>
    rw [rebuilt_of_modified hreport]
    have hfollows := follows_minimal (closed_of_resolve hstd hresolve) (pos_of_resolve hstd hresolve)
    exact hfollows.serves hserves htokens
  | false =>
    rw [rebuilt_of_not_modified hreport]
    exact hserves

end Rebuilt

/-- Building a graph is resolving the priorities in the minimal automaton and looking at the
start. -/
theorem buildGraph_eq_of_resolve {start : Nat}
    (hresolve : (g.minimal start).resolve mode 0 = .ok (h, report)) (names : Array String) :
    buildGraph mode g start names =
      match (h.rebuilt report).emptyMatch? 0 with
      | some id => .error (.zeroLengthToken (nameForError names id))
      | none => .ok (h.rebuilt report) := by
  simp only [buildGraph, hresolve, rebuilt]
  rfl

/-- Priorities can be resolved in a graph of the right shape. -/
theorem WellFormed.exists_resolve_eq_ok (hg : g.WellFormed count)
    (hmany : (count : Int) ≤ maxTokenId + 1) (mode : PriorityMode) :
    ∃ h report, g.resolve mode 0 = .ok (h, report) := by
  refine Graph.exists_resolve_eq_ok mode 0 fun i e he hfinal => ?_
  obtain ⟨id, hid, hfirst⟩ := hg.exists_first?_eq_marker he hfinal
  exact ⟨_, hfirst, Code.isMarker_marker (Int.natCast_nonneg id) (by omega)⟩

/-- The graph that is built from one that recognizes some tokens: it is in standard form,
and all that can be wrong with it is that its start recognizes a token. -/
theorem Recognizes.exists_buildGraph_eq (hrec : g.Recognizes tokens) (hclosed : g.Closed)
    (hpos : 0 < g.size) (htokens : HaveMarkers tokens)
    (hcount : ∀ id, ∀ u ∈ tokens id, id < count) (hmany : (count : Int) ≤ maxTokenId + 1)
    (mode : PriorityMode) :
    ∃ d, d.Standard ∧ d.WellFormed count ∧ d.Serves mode tokens ∧ ∀ names,
      buildGraph mode g 0 names =
        match d.emptyMatch? 0 with
        | some id => .error (.zeroLengthToken (nameForError names id))
        | none => .ok d := by
  have hstd := standard_minimal hclosed hpos
  have hrec' := (follows_minimal hclosed hpos).recognizes hrec htokens
  have hwell := hstd.wellFormed (Sound.endsInMarkers hrec'.sound htokens hcount)
  obtain ⟨h, report, hresolve⟩ := hwell.exists_resolve_eq_ok hmany mode
  have hserves := hwell.serves_of_resolve hrec' htokens hresolve
  have hstd' := standard_rebuilt hstd hresolve
  have hserves' := serves_rebuilt hstd hresolve hserves htokens
  have hwell' := hstd'.wellFormed (hserves'.sound.endsInMarkers htokens hcount)
  exact ⟨h.rebuilt report, hstd', hwell', hserves', buildGraph_eq_of_resolve hresolve⟩

end Graph

/-! ## The outcome -/

/-- How building an automaton ends when the graph built is `d`. -/
inductive Outcome (d : Graph) (names : Array String) (config : BuildConfig) :
    Except BuildError Automaton → Prop where
  /-- The start recognizes a token. -/
  | zeroLength {id : Int} (hempty : d.emptyMatch? 0 = some id) :
      Outcome d names config (.error (.zeroLengthToken (nameForError names id)))
  /-- A token is never recognized, and this is an error. -/
  | redundant {id : Nat} (hempty : d.emptyMatch? 0 = none)
      (hreject : config.rejectRedundant = true) (hmissing : unrecognized? d names.size = some id) :
      Outcome d names config (.error (.redundantToken (nameForError names id)))
  | built {a : Automaton} (hempty : d.emptyMatch? 0 = none)
      (hkept : config.rejectRedundant = true → unrecognized? d names.size = none)
      (hgraph : a.graph = d) (hnames : a.names = names) : Outcome d names config (.ok a)

/-- Words of tokens are words of compiled patterns, and ids are checked. -/
theorem haveMarkers_tokenWords (hproper : ∀ d ∈ definitions, d.fragment.Proper)
    (hnames : tokenNames definitions = .ok names) :
    Graph.HaveMarkers (Reference.tokenWords definitions) := by
  rintro id u ⟨d, hd, hid, hu⟩
  obtain ⟨n, rfl, hle, -⟩ := (NamesAre.of_tokenNames hnames).getElem? d hd id hid
  exact ⟨(hproper d hd).mem_chars_of_mem_matched hu, Int.natCast_nonneg n, hle⟩

/-- Every token that has words has a name. -/
theorem lt_size_of_mem_tokenWords (hnames : tokenNames definitions = .ok names) :
    ∀ id, ∀ u ∈ Reference.tokenWords definitions id, id < names.size := by
  rintro id u ⟨d, hd, hid, -⟩
  obtain ⟨n, hn, rfl⟩ := lt_size_of_id hnames hd hid
  omega

/-- The combined graph recognizes the tokens of the definitions. -/
theorem combined_of_tokenNames (hproper : ∀ d ∈ definitions, d.fragment.Proper)
    (hnames : tokenNames definitions = .ok names) :
    Graph.Combined (combine definitions) (allMarked definitions) := by
  refine combined_combine definitions hproper fun d hd id hid => ?_
  obtain ⟨n, rfl, -⟩ := (NamesAre.of_tokenNames hnames).getElem? d hd id hid
  unfold unknownToken
  omega

/-- A combined graph recognizes the tokens of its definitions. -/
theorem Graph.Combined.recognizes {g : Graph} (hcombined : Combined g (allMarked definitions)) :
    g.Recognizes (Reference.tokenWords definitions) where
  sound w haccepts := (hcombined.accepts w).mp haccepts
  complete id u hu := ⟨id, Int.le_refl id, (hcombined.accepts _).mpr ⟨id, u, hu, rfl⟩⟩

/-- Building is building the graph and then looking for tokens that are never recognized. -/
theorem compile_eq (hnames : tokenNames definitions = .ok names) (config : BuildConfig) :
    compile definitions config =
      (buildGraph config.priority (combine definitions) 0 names).bind fun g =>
        match if config.rejectRedundant then unrecognized? g names.size else none with
        | some id => .error (.redundantToken (nameForError names id))
        | none => (Automaton.ofGraph? g names).mapError .malformedAutomaton := by
  rw [compile, hnames]
  rfl

/-- The graph that is built, and how building ends. -/
theorem exists_outcome (hproper : ∀ d ∈ definitions, d.fragment.Proper)
    (hnames : tokenNames definitions = .ok names) (config : BuildConfig) :
    ∃ d, d.Standard ∧ d.WellFormed names.size ∧
      d.Serves config.priority (Reference.tokenWords definitions) ∧
        Outcome d names config (compile definitions config) := by
  have hcombined := combined_of_tokenNames hproper hnames
  have htokens := haveMarkers_tokenWords hproper hnames
  have hcount := lt_size_of_mem_tokenWords hnames
  have hmany := size_le_of_tokenNames hnames
  obtain ⟨d, hstd, hwell, hserves, hbuild⟩ := hcombined.recognizes.exists_buildGraph_eq
    hcombined.closed hcombined.pos htokens hcount hmany config.priority
  refine ⟨d, hstd, hwell, hserves, ?_⟩
  rw [compile_eq hnames, hbuild]
  cases hempty : d.emptyMatch? 0 with
  | some id => exact Outcome.zeroLength hempty
  | none =>
    simp only [Except.bind]
    split
    · rename_i id hid
      obtain ⟨hreject, hmissing⟩ := Option.ite_none_right_eq_some.mp hid
      exact Outcome.redundant hempty hreject hmissing
    · rename_i hnone
      have hkept : config.rejectRedundant = true → unrecognized? d names.size = none := by
        intro hreject
        rwa [if_pos hreject] at hnone
      obtain ⟨a, ha⟩ := hwell.exists_ofGraph?_eq_ok rfl hmany
      obtain ⟨hgraph, hnames'⟩ := Automaton.eq_of_ofGraph?_eq_ok ha
      rw [ha]
      exact Outcome.built hempty hkept hgraph hnames'

/-! ## Tokens that match without input -/

namespace Graph.Serves

variable {d : Graph} {mode : PriorityMode} {tokens : Int → Language Int} {count : Nat}
  (hserves : d.Serves mode tokens) (hwell : d.WellFormed count)
include hserves hwell

/-- The start recognizes the largest token that matches without input. -/
theorem emptyMatch?_eq_some_iff {id : Int} :
    d.emptyMatch? 0 = some id ↔ IsGreatest {k | [] ∈ tokens k} id := by
  rw [hwell.emptyMatch?_eq_some_iff]
  exact hserves.sound.isGreatest_marker_iff hserves.empty

/-- The scan for an empty match finds none iff no token matches the empty word. -/
theorem emptyMatch?_eq_none_iff : d.emptyMatch? 0 = none ↔ ∀ id, [] ∉ tokens id := by
  rw [hwell.emptyMatch?_eq_none_iff]
  constructor
  · intro hnone id hid
    obtain ⟨later, -, haccepts⟩ := hserves.empty id hid
    exact hnone later haccepts
  · intro hnone id haccepts
    exact hnone id (hserves.sound.mem_of_accepts haccepts)

end Graph.Serves

/-- Whether the exit of a fragment can be reached without input. -/
def Fragment.isNullable (f : Fragment) : Bool :=
  (f.graph.silentClosure [f.ends.entry]).contains f.ends.exit

/-- Whether a token matches without input can be computed. -/
theorem nil_notMem_tokenWords (hproper : ∀ d ∈ definitions, d.fragment.Proper)
    (hnullable : definitions.all (fun d => !d.fragment.isNullable) = true) (id : Int) :
    [] ∉ Reference.tokenWords definitions id := by
  rintro ⟨d, hd, -, hnil⟩
  have hexit := List.all_eq_true.mp hnullable d hd
  simp [Fragment.isNullable, (hproper d hd).nil_mem_matched_iff.mp hnil] at hexit

/-- When no token matches without input, and tokens that are never recognized are no error,
building succeeds. -/
theorem exists_compile_eq_ok {config : BuildConfig} (hproper : ∀ d ∈ definitions, d.fragment.Proper)
    (hnames : tokenNames definitions = .ok names)
    (hempty : ∀ id, [] ∉ Reference.tokenWords definitions id)
    (hkeep : config.rejectRedundant = false) : ∃ a, compile definitions config = .ok a := by
  obtain ⟨d, -, hwell, hserves, houtcome⟩ := exists_outcome hproper hnames config
  have hnone := (hserves.emptyMatch?_eq_none_iff hwell).mpr hempty
  generalize compile definitions config = result at houtcome
  cases houtcome with
  | zeroLength hsome => exact absurd (hnone.symm.trans hsome) (by simp)
  | redundant _ hreject => exact absurd (hkeep.symm.trans hreject) (by simp)
  | built => exact ⟨_, rfl⟩

/-! ## What was built -/

/-- A start that recognizes nothing has no edge into a final state. -/
theorem isFinal_eq_false_of_emptyMatch? {g : Graph} {start : Nat}
    (h : g.emptyMatch? start = none) : ∀ e ∈ g.edges start, g.isFinal e.target = false := by
  rw [Graph.emptyMatch?, Option.map_eq_none_iff, List.find?_eq_none] at h
  intro e he
  exact Bool.eq_false_iff.mpr (h e he)

/-- What holds of an automaton that was built. -/
theorem built_of_compile {config : BuildConfig} {a : Automaton}
    (hproper : ∀ d ∈ definitions, d.fragment.Proper)
    (hcompile : compile definitions config = .ok a) :
    tokenNames definitions = .ok a.names ∧ a.graph.Standard ∧ a.graph.WellFormed a.names.size ∧
      a.graph.Serves config.priority (Reference.tokenWords definitions) ∧
        a.graph.emptyMatch? 0 = none := by
  obtain ⟨names, hnames, -⟩ := bind_eq_ok_iff.mp hcompile
  obtain ⟨d, hstd, hwell, hserves, houtcome⟩ := exists_outcome hproper hnames config
  rw [hcompile] at houtcome
  cases houtcome with
  | built hempty _ hgraph hnames' =>
    subst hgraph
    subst hnames'
    exact ⟨hnames, hstd, hwell, hserves, hempty⟩

/-- An automaton that was built recognizes the tokens of its definitions, and its start
marks nothing. -/
theorem recognizes_of_compile {config : BuildConfig} {a : Automaton}
    (hmode : config.priority ≠ .declarationOrder)
    (hproper : ∀ d ∈ definitions, d.fragment.Proper)
    (hcompile : compile definitions config = .ok a) :
    tokenNames definitions = .ok a.names ∧
      a.graph.Recognizes (Reference.tokenWords definitions) ∧
        ∀ e ∈ a.graph.edges 0, a.graph.isFinal e.target = false := by
  obtain ⟨hnames, -, -, hserves, hempty⟩ := built_of_compile hproper hcompile
  exact ⟨hnames, hserves.recognizes hmode, isFinal_eq_false_of_emptyMatch? hempty⟩

/-! ## From entries to automata -/

/-- The fragments of accepted entries are proper. -/
theorem proper_of_definitionsOf {entries : List ScriptEntry}
    (hdefinitions : definitionsOf entries = .ok definitions) :
    ∀ d ∈ definitions, d.fragment.Proper :=
  fun d hd => (compiled_of_definitionsOf hdefinitions d hd).proper

/-- The tables of a compiled graph are always well formed. -/
theorem compile_ne_malformedAutomaton (hproper : ∀ d ∈ definitions, d.fragment.Proper)
    (config : BuildConfig) (fault : AutomatonFault) :
    compile definitions config ≠ .error (.malformedAutomaton fault) := by
  intro hcompile
  rcases bind_eq_error_iff.mp hcompile with hnames | ⟨names, hnames, -⟩
  · exact isNaming_of_namesFrom hnames
  · obtain ⟨d, -, -, -, houtcome⟩ := exists_outcome hproper hnames config
    rw [hcompile] at houtcome
    cases houtcome

/-- Building an automaton never reports a malformed one.  What it gives has the shape of the
graph of a tokenizer, with one marker on each edge into the final state when priorities
count. -/
theorem wellFormed_of_compileEntries (entries : List ScriptEntry) (config : BuildConfig) :
    (∀ fault, compileEntries entries config ≠ .error (.build (.malformedAutomaton fault))) ∧
      ∀ a, compileEntries entries config = .ok a →
        a.graph.WellFormed a.names.size ∧
          (config.priority ≠ .off →
            ∀ i, ∀ e ∈ a.graph.edges i, a.graph.isFinal e.target = true →
              ∃ id < a.names.size, e.label = CodeSet.single (Code.marker (id : Nat))) := by
  refine ⟨fun fault hbuild => ?_, fun a hbuild => ?_⟩
  · rcases bind_eq_error_iff.mp hbuild with hdefinitions | ⟨definitions, hdefinitions, hrest⟩
    · obtain ⟨name, hname⟩ := exists_eq_duplicateToken_of_definitionsFrom hdefinitions
      cases hname
    · obtain ⟨error, hcompile, herror⟩ := mapError_eq_error_iff.mp hrest
      cases herror
      have hproper := proper_of_definitionsOf hdefinitions
      exact compile_ne_malformedAutomaton hproper config fault hcompile
  · obtain ⟨definitions, hdefinitions, hrest⟩ := bind_eq_ok_iff.mp hbuild
    have hproper := proper_of_definitionsOf hdefinitions
    obtain ⟨-, -, hwell, hserves, -⟩ := built_of_compile hproper (mapError_eq_ok_iff.mp hrest)
    refine ⟨hwell, fun hmode i e he hfinal => ?_⟩
    exact hwell.exists_eq_single (hserves.decides hmode) he hfinal

/-- Two kinds of words, one of them a single word, and blanks. -/
def wordEntries : List ScriptEntry :=
  [⟨"WORD", "[ab]+", none⟩, ⟨"KEY", "ab", none⟩, ⟨"WS", "\\s", none⟩]

/-- The blanks between the words. -/
def blanks : TokenDefinition := ⟨"WS", some 2, (Pattern.codes (CodeSet.single 32)).fragment⟩

/-- The definitions of `wordEntries`. -/
def wordDefinitions : List TokenDefinition :=
  [⟨"WORD", some 0,
      (Pattern.repeated (.codes CodeSet.firstLetters) .oneOrMore).fragment⟩,
    ⟨"KEY", some 1,
      (Pattern.sequence (.codes (CodeSet.single 97)) (.codes (CodeSet.single 98))).fragment⟩,
    blanks]

/-- They are what the entries define. -/
theorem definitionsOf_wordEntries : definitionsOf wordEntries = .ok wordDefinitions := by
  with_unfolding_all rfl

/-- The names of the three tokens. -/
theorem tokenNames_wordDefinitions :
    tokenNames wordDefinitions = .ok #["WORD", "KEY", "WS"] := by
  decide +kernel

/-- The definitions compile. -/
theorem exists_compile_wordDefinitions :
    ∃ a, compile wordDefinitions ⟨.longestMatch, false⟩ = .ok a := by
  have hproper := proper_of_definitionsOf definitionsOf_wordEntries
  have hnames := tokenNames_wordDefinitions
  have hexits : wordDefinitions.all (fun d => !d.fragment.isNullable) = true := by cbv
  exact exists_compile_eq_ok hproper hnames (nil_notMem_tokenWords hproper hexits) rfl

/-- The single word matches its own definition. -/
theorem key_mem_tokenWords : [97, 98] ∈ Reference.tokenWords wordDefinitions 1 := by
  have hcodes : (Pattern.sequence (.codes (CodeSet.single 97)) (.codes (CodeSet.single 98))).Over
      Fragment.Proper :=
    ⟨fun c hc => CodeSet.mem_single.mp hc ▸ by decide,
      fun c hc => CodeSet.mem_single.mp hc ▸ by decide⟩
  have hfirst : [97] ∈ Pattern.oneCode (CodeSet.single 97) := ⟨97, rfl, by decide⟩
  have hsecond : [98] ∈ Pattern.oneCode (CodeSet.single 98) := ⟨98, rfl, by decide⟩
  refine ⟨_, List.mem_cons_of_mem _ List.mem_cons_self, rfl, ?_⟩
  rw [Pattern.matched_fragment hcodes]
  exact Language.append_mem_mul hfirst hsecond

/-- The single word also is a word of the other kind, but only its own marker is left. -/
theorem wellFormed_compileEntries_words :
    ∃ a, compileEntries wordEntries ⟨.longestMatch, false⟩ = .ok a ∧
      a.graph.WellFormed a.names.size ∧
        (∀ i, ∀ e ∈ a.graph.edges i, a.graph.isFinal e.target = true →
          ∃ id < a.names.size, e.label = CodeSet.single (Code.marker (id : Nat))) ∧
        a.names = #["WORD", "KEY", "WS"] ∧
          ∃ id, 1 ≤ id ∧ a.graph.Accepts 0 ([97, 98] ++ [Code.marker id]) := by
  obtain ⟨a, hcompile⟩ := exists_compile_wordDefinitions
  have hproper := proper_of_definitionsOf definitionsOf_wordEntries
  obtain ⟨hnames, hrecognizes, -⟩ := recognizes_of_compile (by decide) hproper hcompile
  have hmatched := hrecognizes.complete 1 [97, 98] key_mem_tokenWords
  have hentries : compileEntries wordEntries ⟨.longestMatch, false⟩ = .ok a :=
    bind_eq_ok_iff.mpr ⟨wordDefinitions, definitionsOf_wordEntries, mapError_eq_ok_iff.mpr hcompile⟩
  obtain ⟨hwell, hsingle⟩ := (wellFormed_of_compileEntries wordEntries _).2 a hentries
  exact ⟨a, hentries, hwell, hsingle (by decide), Except.ok.inj (hnames.symm.trans tokenNames_wordDefinitions),
    hmatched⟩

end Munch

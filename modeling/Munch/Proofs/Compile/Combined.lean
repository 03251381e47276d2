import Munch.Compile
import Munch.Proofs.Automaton.Walk
import Munch.Proofs.Pattern.Compiled
import Munch.Proofs.Reference

/-!
# One graph for all definitions

The definitions of a script come from compiled patterns, their ids count up, and the graph
in which they are combined accepts the words of every token with its marker behind them.

Main results:

- Theorem {lit}`compiled_of_definitionsOf`: the fragments of definitions are compiled
  patterns.
- Theorem {lit}`NamesAre.of_tokenNames`: names that were checked belong to the tokens with
  their numbers.
- Theorem {lit}`combined_combine`: what the combined graph accepts.
-/

open scoped Computability

namespace Munch

/-! ## Definitions -/

/-- An entry that is accepted has a new name and a pattern that compiles. -/
theorem compilePattern_of_compileEntry {table : FragmentTable} {e : ScriptEntry} {f : Fragment}
    (h : compileEntry table e = .ok f) :
    table.lookup e.name = none ∧ compilePattern table e.pattern = .ok f := by
  unfold compileEntry at h
  split at h
  · cases h
  · split at h
    · cases h
    · rename_i hnew
      exact ⟨Option.not_isSome_iff_eq_none.mp hnew, mapError_eq_ok_iff.mp h⟩

theorem compiled_of_definitionsFrom {table : FragmentTable} {nextId : Int}
    {entries : List ScriptEntry} {definitions : List TokenDefinition}
    (htable : ∀ entry ∈ table, Compiled entry.2)
    (h : definitionsFrom table nextId entries = .ok definitions) :
    ∀ d ∈ definitions, Compiled d.fragment := by
  induction entries generalizing table nextId definitions with
  | nil =>
    cases h
    intro d hd
    cases hd
  | cons e rest ih =>
    rw [definitionsFrom] at h
    obtain ⟨f, hf, hrest⟩ := bind_eq_ok_iff.mp h
    have hcompiled := Compiled.intro htable (compilePattern_of_compileEntry hf).2
    have htable' : ∀ entry ∈ table.insert e.name f, Compiled entry.2 :=
      List.forall_mem_cons.mpr ⟨hcompiled, htable⟩
    simp only at hrest
    split at hrest
    · obtain ⟨others, hothers, hdefinitions⟩ := bind_eq_ok_iff.mp hrest
      cases hdefinitions
      exact List.forall_mem_cons.mpr ⟨hcompiled, ih htable' hothers⟩
    · obtain ⟨others, hothers, hdefinitions⟩ := bind_eq_ok_iff.mp hrest
      cases hdefinitions
      exact List.forall_mem_cons.mpr ⟨hcompiled, ih htable' hothers⟩

/-- The fragments of definitions are compiled patterns. -/
theorem compiled_of_definitionsOf {entries : List ScriptEntry}
    {definitions : List TokenDefinition} (h : definitionsOf entries = .ok definitions) :
    ∀ d ∈ definitions, Compiled d.fragment :=
  compiled_of_definitionsFrom (fun entry hentry => by cases hentry) h

/-! ## Names -/

/-- Names are different, and a definition with an id has the name with that number. -/
structure NamesAre (definitions : List TokenDefinition) (names : List String) : Prop where
  nodup : names.Nodup
  getElem? : ∀ d ∈ definitions, ∀ id, d.id = some id →
    ∃ n : Nat, id = n ∧ id ≤ maxTokenId ∧ names[n]? = some d.name

/-- Checking definitions keeps the names found before and adds those of the others. -/
theorem namesFrom_eq_ok {definitions : List TokenDefinition} {seen names : List String}
    {result : Array String} (hnames : names.Nodup) (hseen : ∀ name ∈ names, name ∈ seen)
    (h : namesFrom seen names definitions = .ok result) :
    names.reverse <+: result.toList ∧ NamesAre definitions result.toList := by
  induction definitions generalizing seen names with
  | nil =>
    rw [namesFrom] at h
    split at h
    · cases h
    · cases h
      refine ⟨List.prefix_refl _, List.nodup_reverse.mpr hnames, fun d hd => ?_⟩
      cases hd
  | cons d rest ih =>
    rw [namesFrom] at h
    split at h
    · cases h
    · rename_i hnew
      split at h
      · rename_i hid
        have hseen' : ∀ name ∈ names, name ∈ d.name :: seen :=
          fun name hname => List.mem_cons_of_mem _ (hseen name hname)
        obtain ⟨hbefore, hrest⟩ := ih hnames hseen' h
        refine ⟨hbefore, hrest.nodup, List.forall_mem_cons.mpr ⟨fun id hsome => ?_, hrest.getElem?⟩⟩
        rw [hid] at hsome
        cases hsome
      · rename_i id hid
        split at h
        · rename_i hnext
          have hfresh : d.name ∉ names := fun hname =>
            hnew (List.contains_iff_mem.mpr (hseen _ hname))
          have hseen' : ∀ name ∈ d.name :: names, name ∈ d.name :: seen :=
            List.forall_mem_cons.mpr ⟨List.mem_cons_self,
              fun name hname => List.mem_cons_of_mem _ (hseen name hname)⟩
          obtain ⟨hbefore, hrest⟩ := ih (List.nodup_cons.mpr ⟨hfresh, hnames⟩) hseen' h
          rw [List.reverse_cons] at hbefore
          refine ⟨(List.prefix_append _ _).trans hbefore, hrest.nodup,
            List.forall_mem_cons.mpr ⟨fun other hother => ?_, hrest.getElem?⟩⟩
          obtain rfl : id = other := Option.some.inj (hid.symm.trans hother)
          refine ⟨names.length, hnext.1, hnext.2, ?_⟩
          obtain ⟨others, hothers⟩ := hbefore
          rw [← hothers, List.append_assoc, List.getElem?_append_right (by simp)]
          simp
        · cases h

/-- Names that were checked belong to the tokens with their numbers. -/
theorem NamesAre.of_tokenNames {definitions : List TokenDefinition} {names : Array String}
    (h : tokenNames definitions = .ok names) : NamesAre definitions names.toList :=
  (namesFrom_eq_ok List.nodup_nil (fun name hname => by cases hname) h).2

/-- The number of a name is the id of its definition. -/
theorem NamesAre.id_eq_of_getElem? {definitions : List TokenDefinition} {names : List String}
    (hnames : NamesAre definitions names) {d : TokenDefinition} (hd : d ∈ definitions) {id : Int}
    (hid : d.id = some id) {n : Nat} (hn : names[n]? = some d.name) : id = n := by
  obtain ⟨k, rfl, -, hk⟩ := hnames.getElem? d hd id hid
  obtain ⟨hlt, -⟩ := List.getElem?_eq_some_iff.mp hk
  -- The names are different, so only one number has the name.
  rw [(List.getElem?_inj hlt hnames.nodup).mp (hk.trans hn.symm)]

/-- The id of a definition is found by its name. -/
theorem NamesAre.tokenId?_eq {definitions : List TokenDefinition} {a : Automaton}
    (hnames : NamesAre definitions a.names.toList) {d : TokenDefinition} (hd : d ∈ definitions)
    {id : Int} (hid : d.id = some id) : a.tokenId? d.name = some id := by
  obtain ⟨n, -, -, hn⟩ := hnames.getElem? d hd id hid
  have hmem : (d.name, n) ∈ a.names.toList.zipIdx.reverse :=
    List.mem_reverse.mpr (List.mem_zipIdx_iff_getElem?.mpr hn)
  rw [Automaton.tokenId?, Option.map_eq_some_iff]
  cases hfind : a.names.toList.zipIdx.reverse.find? fun entry => entry.1 = d.name with
  | none => exact absurd (decide_eq_true rfl) (List.find?_eq_none.mp hfind _ hmem)
  | some entry =>
    have hentry := List.mem_zipIdx_iff_getElem?.mp
      (List.mem_reverse.mp (List.mem_of_find?_eq_some hfind))
    have hname : entry.1 = d.name := by simpa using List.find?_some hfind
    rw [hname] at hentry
    exact ⟨entry, rfl, (hnames.id_eq_of_getElem? hd hid hentry).symm⟩

/-- So is the id of a definition that may be given or not. -/
theorem NamesAre.map_tokenId?_eq {definitions : List TokenDefinition} {a : Automaton}
    (hnames : NamesAre definitions a.names.toList) {chosen : Option TokenDefinition}
    (hchosen : ∀ d ∈ chosen, d ∈ definitions ∧ d.id.isSome = true) :
    (chosen.map TokenDefinition.name).map a.tokenId? =
      (chosen.bind TokenDefinition.id).map some := by
  cases chosen with
  | none => rfl
  | some d =>
    obtain ⟨hd, hsome⟩ := hchosen d rfl
    obtain ⟨id, hid⟩ := Option.isSome_iff_exists.mp hsome
    simp only [Option.map_some, Option.bind_some, hnames.tokenId?_eq hd hid, hid]

/-! ## The combined graph -/

/-- The words of a language with the marker of a token behind them. -/
def marked (id : Int) (l : Language Int) : Language Int :=
  {w | ∃ u ∈ l, w = u ++ [Code.marker id]}

theorem mem_marked {id : Int} {l : Language Int} {w : List Int} :
    w ∈ marked id l ↔ ∃ u ∈ l, w = u ++ [Code.marker id] :=
  Iff.rfl

namespace Graph

variable {g : Graph} {i j s t : Nat}

/-- The words that lead over a new edge to a new state. -/
theorem words_addEdge_addState (hclosed : g.Closed) (hi : i < g.size) (hs : s < g.size) (b : Bool)
    (label : CodeSet) :
    ((g.addState b).addEdge s label g.size).words i g.size = g.words i s * steps label := by
  have hsize : s < (g.addState b).size := by
    rw [size_addState]
    exact Nat.lt_succ_of_lt hs
  have hedges : g.edges g.size = [] := edges_eq_nil_of_size_le (Nat.le_refl _)
  have hforward : g.words i g.size = 0 := words_eq_zero hclosed.isPart hi (Nat.lt_irrefl _)
  have hself : g.words g.size g.size = 1 := by rw [words_of_edges_eq_nil hedges, if_pos rfl]
  have hback : g.words g.size s = 0 := by
    rw [words_of_edges_eq_nil hedges, if_neg (Nat.ne_of_lt hs)]
  rw [words_addEdge hsize, words_addState, words_addState, words_addState, words_addState, hforward,
    hself, hback, mul_zero, kstar_zero, mul_one, mul_one, zero_add]

/-- A marker is read as it is. -/
theorem mul_steps_marker {id : Int} (hid : id ≠ unknownToken) (l : Language Int) :
    l * steps (CodeSet.single (Code.marker id)) = marked id l := by
  have hne : Code.marker id ≠ Code.silent := by
    unfold Code.marker Code.silent
    unfold unknownToken at hid
    omega
  ext w
  rw [Language.mem_mul, mem_marked]
  constructor
  · rintro ⟨u, hu, v, hv, rfl⟩
    rcases mem_steps.mp hv with ⟨-, hsilent⟩ | ⟨c, rfl, hc, -⟩
    · exact absurd (CodeSet.mem_single.mp hsilent).symm hne
    · rw [CodeSet.mem_single.mp hc]
      exact ⟨u, hu, rfl⟩
  · rintro ⟨u, hu, rfl⟩
    exact ⟨u, hu, _, Or.inr ⟨_, rfl, CodeSet.mem_single.mpr rfl, hne⟩, rfl⟩

/-- A closed graph whose start has no edges into it, with what the start accepts. -/
structure Combined (g : Graph) (l : Language Int) : Prop where
  closed : g.Closed
  pos : 0 < g.size
  words_start : g.words 0 0 = 1
  accepts : ∀ w, g.Accepts 0 w ↔ w ∈ l

theorem combined_start : Combined (empty.addState false) 0 where
  closed := closed_empty.addState false
  pos := Nat.succ_pos _
  words_start := by
    have hedges : empty.edges 0 = [] := edges_eq_nil_of_size_le (Nat.zero_le 0)
    rw [words_addState, words_of_edges_eq_nil hedges, if_pos rfl]
  accepts w := by
    refine ⟨?_, fun hw => absurd hw (Language.notMem_zero w)⟩
    rintro ⟨j, -, hfinal⟩
    rw [isFinal_addState] at hfinal
    split at hfinal
    · cases hfinal
    · cases hfinal

/-- A graph with a fragment behind it that leads to a new final state on its marker. -/
def withMarked (g : Graph) (id : Int) (f : Fragment) : Graph :=
  ((f.spliceInto g).1.addState true).addEdge (f.spliceInto g).2.exit
    (CodeSet.single (Code.marker id)) (f.spliceInto g).1.size

theorem addToken_eq (g : Graph) (id : Int) (f : Fragment) :
    addToken g id f = (g.withMarked id f).addSilent 0 (f.spliceInto g).2.entry :=
  rfl

section WithMarked

variable {f : Fragment} (hproper : f.Proper) {id : Int}
include hproper

theorem continues_withMarked (g : Graph) (id : Int) : Continues g (g.withMarked id f) :=
  ((hproper.continues_spliceInto g).addState true).addEdge (hproper.size_le_exit_spliceInto g)
    (hproper.continues_spliceInto g).size_le _

omit hproper in
theorem closed_withMarked (hfragment : f.graph.Closed) (hclosed : g.Closed) (id : Int) :
    (g.withMarked id f).Closed := by
  have hspliced : (f.spliceInto g).1.Closed := closed_copyInto hfragment hclosed
  refine (hspliced.addState true).addEdge ?_ _ _
  rw [size_addState]
  exact Nat.lt_succ_self _

/-- The new final state is reached from the entry on the marked words. -/
theorem words_withMarked (hclosed : g.Closed) (hid : id ≠ unknownToken) :
    (g.withMarked id f).words (f.spliceInto g).2.entry (f.spliceInto g).1.size =
      marked id f.matched := by
  have hspliced : (f.spliceInto g).1.Closed := closed_copyInto hproper.plain.closed hclosed
  rw [withMarked, words_addEdge_addState hspliced (hproper.entry_spliceInto_lt g)
    (hproper.exit_spliceInto_lt g), hproper.words_spliceInto, mul_steps_marker hid]

theorem isFinal_withMarked_iff :
    (g.withMarked id f).isFinal i = true ↔
      i = (f.spliceInto g).1.size ∨ i < g.size ∧ g.isFinal i = true := by
  rw [withMarked, isFinal_addEdge, isFinal_addState]
  split
  · rename_i heq
    exact iff_of_true rfl (Or.inl heq)
  · rename_i hne
    have hflags : (f.spliceInto g).1.isFinal i = (decide (i < g.size) && g.isFinal i) :=
      hproper.isFinal_copyInto g _ i
    rw [hflags, Bool.and_eq_true, decide_eq_true_eq, or_iff_right hne]

/-- One more token adds its words with its marker behind them. -/
theorem Combined.addToken {l : Language Int} (hcombined : Combined g l)
    (hid : id ≠ unknownToken) : Combined (Munch.addToken g id f) (l + marked id f.matched) := by
  have hcont := continues_withMarked hproper g id
  have hclosed := closed_withMarked hproper.plain.closed hcombined.closed id
  have hpos : 0 < (g.withMarked id f).size := Nat.lt_of_lt_of_le hcombined.pos hcont.size_le
  have hentry : g.size ≤ (f.spliceInto g).2.entry := hproper.size_le_entry_spliceInto g
  -- The new edge leads from the start to the entry, and nothing leads back.
  have hwords : ∀ j, ((g.withMarked id f).addSilent 0 (f.spliceInto g).2.entry).words 0 j =
      (g.withMarked id f).words 0 j + (g.withMarked id f).words (f.spliceInto g).2.entry j := by
    intro j
    rw [words_addSilent hpos, hcont.words_old hcombined.closed hcombined.pos,
      hcont.words_old hcombined.closed hcombined.pos, hcombined.words_start,
      hcont.words_backward hentry hcombined.pos, kstar_zero, one_mul, one_mul]
  rw [addToken_eq]
  refine ⟨?_, ?_, ?_, fun w => ?_⟩
  · refine hclosed.addEdge ?_ 0 _
    have hlt := hproper.entry_spliceInto_lt g
    rw [withMarked, size_addEdge, size_addState]
    exact Nat.lt_succ_of_lt hlt
  · rw [size_addSilent]
    exact hpos
  · rw [hwords, hcont.words_old hcombined.closed hcombined.pos, hcombined.words_start,
      hcont.words_backward hentry hcombined.pos, add_zero]
  · rw [Language.mem_add, ← hcombined.accepts, ← words_withMarked hproper hcombined.closed hid]
    have hfinal : ∀ j, ((g.withMarked id f).addSilent 0 (f.spliceInto g).2.entry).isFinal j =
        (g.withMarked id f).isFinal j := fun j => isFinal_addEdge _ _ _ _ j
    constructor
    · rintro ⟨j, hpath, hj⟩
      have hmem : w ∈ (g.withMarked id f).words 0 j +
          (g.withMarked id f).words (f.spliceInto g).2.entry j := hwords j ▸ hpath
      rw [hfinal, isFinal_withMarked_iff hproper] at hj
      rcases (Language.mem_add _ _ _).mp hmem with hold | hnew
      · rw [hcont.words_old hcombined.closed hcombined.pos] at hold
        rcases hj with rfl | ⟨-, hj⟩
        · have hlt := hcombined.closed.lt_of_path hcombined.pos hold
          exact absurd hlt (Nat.not_lt.mpr (hproper.continues_spliceInto g).size_le)
        · exact Or.inl ⟨j, hold, hj⟩
      · rcases hj with rfl | ⟨hlt, -⟩
        · exact Or.inr hnew
        · rw [hcont.words_backward hentry hlt] at hnew
          exact absurd hnew (Language.notMem_zero w)
    · rintro (⟨j, hpath, hj⟩ | hnew)
      · have hlt := hcombined.closed.lt_of_path hcombined.pos hpath
        have hmem : w ∈ (g.withMarked id f).words 0 j := by
          rw [hcont.words_old hcombined.closed hcombined.pos]
          exact hpath
        refine ⟨j, ?_, ?_⟩
        · rw [← mem_words, hwords]
          exact (Language.mem_add _ _ _).mpr (Or.inl hmem)
        · rw [hfinal, isFinal_withMarked_iff hproper]
          exact Or.inr ⟨hlt, hj⟩
      · refine ⟨(f.spliceInto g).1.size, ?_, ?_⟩
        · rw [← mem_words, hwords]
          exact (Language.mem_add _ _ _).mpr (Or.inr hnew)
        · rw [hfinal, isFinal_withMarked_iff hproper]
          exact Or.inl rfl

end WithMarked

end Graph

/-! ## All definitions -/

/-- The words of all tokens with their markers behind them. -/
def allMarked (definitions : List TokenDefinition) : Language Int :=
  {w | ∃ id, w ∈ marked id (Reference.tokenWords definitions id)}

theorem mem_allMarked {definitions : List TokenDefinition} {w : List Int} :
    w ∈ allMarked definitions ↔ ∃ id, w ∈ marked id (Reference.tokenWords definitions id) :=
  Iff.rfl

theorem allMarked_nil : allMarked [] = 0 := by
  ext w
  refine ⟨?_, fun hw => absurd hw (Language.notMem_zero w)⟩
  rintro ⟨id, u, ⟨d, hd, -⟩, -⟩
  cases hd

theorem allMarked_cons_of_none {d : TokenDefinition} (hd : d.id = none)
    (definitions : List TokenDefinition) :
    allMarked (d :: definitions) = allMarked definitions := by
  ext w
  simp [mem_allMarked, mem_marked, Reference.mem_tokenWords, hd]

theorem allMarked_cons_of_some {d : TokenDefinition} {id : Int} (hd : d.id = some id)
    (definitions : List TokenDefinition) :
    allMarked (d :: definitions) = marked id d.fragment.matched + allMarked definitions := by
  ext w
  rw [Language.mem_add, mem_allMarked, mem_allMarked]
  simp only [mem_marked, Reference.mem_tokenWords, List.exists_mem_cons_iff, hd,
    Option.some.injEq]
  constructor
  · rintro ⟨i, u, ⟨rfl, hu⟩ | hu, rfl⟩
    · exact Or.inl ⟨u, hu, rfl⟩
    · exact Or.inr ⟨i, u, hu, rfl⟩
  · rintro (⟨u, hu, rfl⟩ | ⟨i, u, hu, rfl⟩)
    · exact ⟨id, u, Or.inl ⟨rfl, hu⟩, rfl⟩
    · exact ⟨i, u, Or.inr hu, rfl⟩

/-- Adding the tokens of definitions one after the other adds the words of all of them. -/
theorem Graph.Combined.foldl {g : Graph} {l : Language Int} (hcombined : Combined g l)
    (definitions : List TokenDefinition) (hproper : ∀ d ∈ definitions, d.fragment.Proper)
    (hid : ∀ d ∈ definitions, ∀ id, d.id = some id → id ≠ unknownToken) :
    Combined
      (definitions.foldl
        (fun g d =>
          match d.id with
          | none => g
          | some id => Munch.addToken g id d.fragment) g)
      (l + allMarked definitions) := by
  induction definitions generalizing g l with
  | nil =>
    rw [allMarked_nil, add_zero]
    exact hcombined
  | cons d rest ih =>
    obtain ⟨hd, hrest⟩ := List.forall_mem_cons.mp hproper
    obtain ⟨hd', hrest'⟩ := List.forall_mem_cons.mp hid
    rw [List.foldl_cons]
    cases hsome : d.id with
    | none =>
      rw [allMarked_cons_of_none hsome]
      exact ih hcombined hrest hrest'
    | some id =>
      rw [allMarked_cons_of_some hsome, ← add_assoc]
      exact ih (hcombined.addToken hd (hd' id hsome)) hrest hrest'

/-- The combined graph accepts the words of every token with its marker behind them. -/
theorem combined_combine (definitions : List TokenDefinition)
    (hproper : ∀ d ∈ definitions, d.fragment.Proper)
    (hid : ∀ d ∈ definitions, ∀ id, d.id = some id → id ≠ unknownToken) :
    Graph.Combined (combine definitions) (allMarked definitions) := by
  have hcombined := Graph.combined_start.foldl definitions hproper hid
  rwa [zero_add] at hcombined

end Munch

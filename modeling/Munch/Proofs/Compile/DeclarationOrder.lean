import Munch.Proofs.Compile.Recognition
import Munch.Proofs.Compile.Shadowing

/-!
# Automata in declaration order

An automaton that is built in declaration order recognizes fewer texts than one in which the
longest match wins, and for no text another token.  What it loses has a beginning that is
recognized as a token defined later than that of a longer beginning.  The converse holds only
up to words that are alike: a text is kept, although one of its beginnings is recognized as
a token defined later, when another text without such a beginning leads to the same state.

Main results:

- Theorem {lit}`recognized?_eq_some_iff_of_declarationOrder`: what is recognized in
  declaration order.
- Theorem {lit}`recognized?_declarationOrder_longestMatch`: what is kept and what is lost,
  compared with the longest match.
- Theorem {lit}`recognized?_declarationOrder_alike`: what is kept and what is lost, by words
  that are alike.
-/

namespace Munch

open Reference (tokenWords)

variable {definitions : List TokenDefinition} {a b : Automaton} {config : BuildConfig} {id : Int}
  {s : List Char}

/-- The graph of an automaton that was built is a minimal one with priorities resolved. -/
theorem exists_exact_of_compile (hproper : ∀ d ∈ definitions, d.fragment.Proper)
    (hcompile : compile definitions config = .ok a) :
    ∃ g h report, g.Exact (tokenWords definitions) a.names.size ∧
      Graph.resolve config.priority g 0 = .ok (h, report) ∧ a.graph = h.rebuilt report := by
  obtain ⟨hnames, -⟩ := built_of_compile hproper hcompile
  have hcombined := combined_of_tokenNames hproper hnames
  have hmarkers := haveMarkers_tokenWords hproper hnames
  have hcount := lt_size_of_mem_tokenWords hnames
  have hexact := Graph.exact_minimal hcombined.closed hcombined.pos hmarkers hcount
    hcombined.accepts
  obtain ⟨h, report, hresolve⟩ :=
    hexact.wellFormed.exists_resolve_eq_ok (size_le_of_tokenNames hnames) config.priority
  refine ⟨_, h, report, hexact, hresolve, ?_⟩
  rw [compile_eq hnames] at hcompile
  obtain ⟨d, hbuild, hchecked⟩ := bind_eq_ok_iff.mp hcompile
  have hgraph : a.graph = d := by
    split at hchecked
    · cases hchecked
    · exact (Automaton.eq_of_ofGraph?_eq_ok (mapError_eq_ok_iff.mp hchecked)).1
  rw [Graph.buildGraph_eq_of_resolve hresolve] at hbuild
  split at hbuild
  · cases hbuild
  · exact hgraph.trans (Except.ok.inj hbuild).symm

/-- An automaton that was built in declaration order recognizes the last token that a text is
a word of, if every step of the text stays. -/
theorem recognized?_eq_some_iff_of_declarationOrder (hproper : ∀ d ∈ definitions, d.fragment.Proper)
    {reject : Bool} (hcompile : compile definitions ⟨.declarationOrder, reject⟩ = .ok a) :
    a.recognized? s = some id ↔ IsGreatest {k | codes s ∈ tokenWords definitions k} id ∧
      Survives (tokenWords definitions) (codes s) := by
  obtain ⟨g, h, report, hexact, hresolve, hgraph⟩ := exists_exact_of_compile hproper hcompile
  rw [Automaton.recognized?_eq_some_iff, hgraph]
  simp only [hexact.accepts_rebuilt_iff hresolve]
  constructor
  · exact fun hgreatest => hgreatest.1
  · exact fun hgreatest => ⟨hgreatest, fun k hk => hgreatest.1.2 hk.1.1⟩

/-- In a text of some token that is not recognized one step goes: no word like the one before
that step stays below the token that it leads to. -/
theorem exists_step_of_recognized?_eq_none (hproper : ∀ d ∈ definitions, d.fragment.Proper)
    {reject : Bool} (hcompile : compile definitions ⟨.declarationOrder, reject⟩ = .ok a)
    (hgreatest : IsGreatest {k | codes s ∈ tokenWords definitions k} id)
    (hnone : a.recognized? s = none) :
    ∃ u c k, u ++ [c] <+: codes s ∧
      IsGreatest {k | u ++ [c] ∈ tokenWords definitions k} k ∧
        ∀ v, Alike (tokenWords definitions) u v → ¬StaysBelow (tokenWords definitions) k v := by
  have hlost : ¬Survives (tokenWords definitions) (codes s) := fun hsurvives => by
    have hsome := (recognized?_eq_some_iff_of_declarationOrder hproper hcompile).mpr
      ⟨hgreatest, hsurvives⟩
    rw [hnone] at hsome
    cases hsome
  simp only [Survives, not_forall, not_exists, not_and] at hlost
  obtain ⟨u, c, hu, k, hk, hlost⟩ := hlost
  exact ⟨u, c, k, hu, hk, hlost⟩

/-- A word does not stay below a limit exactly when a token after the limit begins it. -/
theorem not_staysBelow_iff {tokens : Int → Language Int} {v : List Int} :
    ¬StaysBelow tokens id v ↔ ∃ q, q <+: v ∧ ∃ k, id < k ∧ q ∈ tokens k := by
  simp only [StaysBelow, not_forall, Int.not_le]
  constructor
  · rintro ⟨q, hq, k, hk, hlt⟩
    exact ⟨q, hq, k, hlt, hk⟩
  · rintro ⟨q, hq, k, hlt, hk⟩
    exact ⟨q, hq, k, hk, hlt⟩

/-! ## Two letters with one continuation -/

/-- Two letters after which the same can follow in the longest word.  One of them is a token by
itself. -/
def sharedEntries : List ScriptEntry :=
  [⟨"LONG", "[ab]cd", none⟩, ⟨"PAIR", "ae", none⟩, ⟨"SHORT", "a", none⟩]

def longPattern : Pattern Fragment :=
  .sequence (.sequence (.codes CodeSet.firstLetters) (.codes (CodeSet.single 99)))
    (.codes (CodeSet.single 100))

def pairPattern : Pattern Fragment :=
  .sequence (.codes (CodeSet.single 97)) (.codes (CodeSet.single 101))

def shortPattern : Pattern Fragment := .codes (CodeSet.single 97)

def sharedDefinitions : List TokenDefinition :=
  [⟨"LONG", some 0, longPattern.fragment⟩, ⟨"PAIR", some 1, pairPattern.fragment⟩,
    ⟨"SHORT", some 2, shortPattern.fragment⟩]

/-- The three definitions are read from their patterns. -/
theorem definitionsOf_sharedEntries : definitionsOf sharedEntries = .ok sharedDefinitions := by
  with_unfolding_all rfl

/-- The words of the three tokens. -/
theorem mem_tokenWords_shared {k : Int} {w : List Int} :
    w ∈ tokenWords sharedDefinitions k ↔
      (k = 0 ∧ (w = [97, 99, 100] ∨ w = [98, 99, 100])) ∨ (k = 1 ∧ w = [97, 101]) ∨
        (k = 2 ∧ w = [97]) := by
  have hlong : longPattern.Over Fragment.Proper := by
    simp [longPattern, Pattern.Over, Code.charLimit]
    omega
  have hpair : pairPattern.Over Fragment.Proper := by
    simp [pairPattern, Pattern.Over, Code.charLimit]
  have hshort : shortPattern.Over Fragment.Proper := by
    simp [shortPattern, Pattern.Over, Code.charLimit]
  simp only [Reference.mem_tokenWords, sharedDefinitions, List.mem_cons, List.not_mem_nil, or_false,
    exists_eq_or_imp, exists_eq_left, Option.some.injEq, Pattern.matched_fragment hlong,
    Pattern.matched_fragment hpair, Pattern.matched_fragment hshort]
  simp only [longPattern, pairPattern, shortPattern, Pattern.through, Language.mem_mul,
    Pattern.mem_oneCode, CodeSet.mem_single, CodeSet.mem_firstLetters, exists_eq_right, exists_eq_left]
  constructor
  · rintro (⟨rfl, _, ⟨_, ⟨c, rfl, hc⟩, rfl⟩, rfl⟩ | ⟨rfl, rfl⟩ | ⟨rfl, rfl⟩)
    · have hletter : c = 97 ∨ c = 98 := by omega
      rcases hletter with rfl | rfl <;> simp
    · simp
    · simp
  · rintro (⟨rfl, rfl | rfl⟩ | ⟨rfl, rfl⟩ | ⟨rfl, rfl⟩)
    · exact Or.inl ⟨rfl, _, ⟨_, ⟨97, rfl, by decide⟩, rfl⟩, rfl⟩
    · exact Or.inl ⟨rfl, _, ⟨_, ⟨98, rfl, by decide⟩, rfl⟩, rfl⟩
    · exact Or.inr (Or.inl ⟨rfl, rfl⟩)
    · exact Or.inr (Or.inr ⟨rfl, rfl⟩)

/-- In every mode building succeeds when tokens that are never recognized are no error. -/
theorem exists_compile_sharedDefinitions (mode : PriorityMode) :
    ∃ a, compile sharedDefinitions ⟨mode, false⟩ = .ok a := by
  have hproper := proper_of_definitionsOf definitionsOf_sharedEntries
  have hnames : tokenNames sharedDefinitions = .ok #["LONG", "PAIR", "SHORT"] := by decide +kernel
  have hnullable : sharedDefinitions.all (fun d => !d.fragment.isNullable) = true := by cbv
  exact exists_compile_eq_ok hproper hnames (nil_notMem_tokenWords hproper hnullable) rfl

section Shared

variable {w : List Int}

/-- No word belongs to two of the tokens. -/
theorem isGreatest_shared (hid : w ∈ tokenWords sharedDefinitions id) :
    IsGreatest {k | w ∈ tokenWords sharedDefinitions k} id := by
  refine ⟨hid, fun k hk => ?_⟩
  have hk' := mem_tokenWords_shared.mp hk
  rw [mem_tokenWords_shared] at hid
  grind

/-- After both letters the same can follow. -/
theorem alike_shared : Alike (tokenWords sharedDefinitions) [97, 99] [98, 99] := by
  refine ⟨by simp, fun id x => ?_⟩
  simp [mem_tokenWords_shared]

/-- Behind the other letter no token has been recognized. -/
theorem staysBelow_shared {limit : Int} :
    StaysBelow (tokenWords sharedDefinitions) limit [98, 99] := by
  intro u hu id hid
  rw [mem_tokenWords_shared] at hid
  rcases hid with ⟨-, rfl | rfl⟩ | ⟨-, rfl⟩ | ⟨-, rfl⟩ <;> simp at hu

/-- The short word survives. -/
theorem survives_short : Survives (tokenWords sharedDefinitions) [97] := by
  rw [← List.nil_append [97], survives_concat]
  refine ⟨survives_nil, fun id hid => ⟨[], Alike.refl _ [], fun u hu k hk => ?_⟩⟩
  rw [List.prefix_nil.mp hu, mem_tokenWords_shared] at hk
  simp at hk

/-- The long word survives, as the short one is not recognized on all ways to its second letter. -/
theorem survives_long : Survives (tokenWords sharedDefinitions) [97, 99, 100] := by
  change Survives _ ([97] ++ [99] ++ [100])
  rw [survives_concat, survives_concat]
  refine ⟨⟨survives_short, fun id hid => ?_⟩, fun id _ => ⟨_, alike_shared, staysBelow_shared⟩⟩
  have hmem := mem_tokenWords_shared.mp hid.1
  simp at hmem

/-- The pair does not survive, as the short word leads to its second letter on the only way. -/
theorem not_survives_pair : ¬Survives (tokenWords sharedDefinitions) [97, 101] := by
  intro hsurvives
  have hpair : [97, 101] ∈ tokenWords sharedDefinitions 1 := by simp [mem_tokenWords_shared]
  have hshort : [97] ∈ tokenWords sharedDefinitions 2 := by simp [mem_tokenWords_shared]
  obtain ⟨v, halike, hbelow⟩ :=
    hsurvives [97] 101 (List.prefix_refl _) 1 (isGreatest_shared hpair)
  have hv : v ++ [] ∈ tokenWords sharedDefinitions 2 := (halike.2 2 []).mp hshort
  rw [List.append_nil] at hv
  have hle := hbelow v (List.prefix_refl v) 2 hv
  omega

variable (hcompile : compile sharedDefinitions ⟨.declarationOrder, false⟩ = .ok a)
include hcompile

/-- What the automaton recognizes of them are the words that survive. -/
theorem recognized?_shared_iff :
    a.recognized? s = some id ↔ codes s ∈ tokenWords sharedDefinitions id ∧
      Survives (tokenWords sharedDefinitions) (codes s) := by
  rw [recognized?_eq_some_iff_of_declarationOrder
    (proper_of_definitionsOf definitionsOf_sharedEntries) hcompile]
  exact and_congr_left fun _ => ⟨fun hgreatest => hgreatest.1, isGreatest_shared⟩

theorem recognized?_short : a.recognized? ['a'] = some 2 :=
  (recognized?_shared_iff hcompile).mpr ⟨mem_tokenWords_shared.mpr (by decide), survives_short⟩

theorem recognized?_long : a.recognized? ['a', 'c', 'd'] = some 0 :=
  (recognized?_shared_iff hcompile).mpr ⟨mem_tokenWords_shared.mpr (by decide), survives_long⟩

theorem recognized?_pair : a.recognized? ['a', 'e'] = none := by
  refine Option.eq_none_iff_forall_ne_some.mpr fun id hid => ?_
  exact not_survives_pair ((recognized?_shared_iff hcompile).mp hid).2

end Shared

/-! ## What is kept and what is lost -/

/-- What is recognized in declaration order is recognized as the same token when the longest
match wins.  A text that is lost has two beginnings, the shorter of which is recognized as a
token defined later. -/
theorem recognized?_declarationOrder_longestMatch {entries : List ScriptEntry}
    (hdefinitions : definitionsOf entries = .ok definitions) {reject reject' : Bool}
    (hlongest : compile definitions ⟨.longestMatch, reject⟩ = .ok b)
    (hdeclared : compile definitions ⟨.declarationOrder, reject'⟩ = .ok a) (s : List Char) :
    (∀ t, a.recognized? s = some t → b.recognized? s = some t) ∧
      ∀ t, b.recognized? s = some t → a.recognized? s = none →
        ∃ s₁ s₂ t₁ t₂, s₁ <+: s₂ ∧ s₁ ≠ s₂ ∧ s₂ <+: s ∧
          b.recognized? s₁ = some t₁ ∧ b.recognized? s₂ = some t₂ ∧ t₂ < t₁ := by
  have hproper := proper_of_definitionsOf hdefinitions
  obtain ⟨-, hrec, -⟩ := recognizes_of_compile (by simp) hproper hlongest
  refine ⟨fun t hkept => ?_, fun t hsome hnone => ?_⟩
  · rw [recognized?_eq_some_iff_of_declarationOrder hproper hdeclared] at hkept
    exact (Automaton.recognized?_eq_some_iff_of_recognizes hrec).mpr hkept.1
  · have hgreatest := (Automaton.recognized?_eq_some_iff_of_recognizes hrec).mp hsome
    obtain ⟨u, c, t₂, hu, hlonger, hlost⟩ :=
      exists_step_of_recognized?_eq_none hproper hdeclared hgreatest hnone
    -- The word before the step is like itself.
    obtain ⟨q, hq, k, hlt, hk⟩ := not_staysBelow_iff.mp (hlost u (Alike.refl _ u))
    obtain ⟨s₂, hs₂, heq₂⟩ := List.prefix_map_iff.mp hu
    have hqlonger := hq.trans (List.prefix_append u [c])
    obtain ⟨s₁, hs₁, rfl⟩ := List.prefix_map_iff.mp (heq₂ ▸ hqlonger)
    obtain ⟨t₁, ht₁, hle⟩ := Automaton.exists_recognized?_eq_some hrec hk
    refine ⟨s₁, s₂, t₁, t₂, hs₁, ?_, hs₂, ht₁, ?_, Int.lt_of_lt_of_le hlt hle⟩
    · rintro rfl
      have hlength := hq.length_le
      rw [← heq₂, List.length_append, List.length_singleton] at hlength
      omega
    · rw [Automaton.recognized?_eq_some_iff_of_recognizes hrec, codes, ← heq₂]
      exact hlonger

/-- The pair is lost: its first letter is the token defined last. -/
theorem recognized?_declarationOrder_pair :
    definitionsOf sharedEntries = .ok sharedDefinitions ∧
      ∃ a b, compile sharedDefinitions ⟨.longestMatch, false⟩ = .ok b ∧
        compile sharedDefinitions ⟨.declarationOrder, false⟩ = .ok a ∧
          b.recognized? ['a'] = some 2 ∧ b.recognized? ['a', 'e'] = some 1 ∧
            a.recognized? ['a', 'e'] = none ∧
              ∃ s₁ s₂ t₁ t₂, s₁ <+: s₂ ∧ s₁ ≠ s₂ ∧ s₂ <+: ['a', 'e'] ∧
                b.recognized? s₁ = some t₁ ∧ b.recognized? s₂ = some t₂ ∧ t₂ < t₁ := by
  obtain ⟨a, hdeclared⟩ := exists_compile_sharedDefinitions .declarationOrder
  obtain ⟨b, hlongest⟩ := exists_compile_sharedDefinitions .longestMatch
  have hproper := proper_of_definitionsOf definitionsOf_sharedEntries
  obtain ⟨-, hrec, -⟩ := recognizes_of_compile (by simp) hproper hlongest
  have hpair : b.recognized? ['a', 'e'] = some 1 :=
    (Automaton.recognized?_eq_some_iff_of_recognizes hrec).mpr
      (isGreatest_shared (mem_tokenWords_shared.mpr (by decide)))
  obtain ⟨hshort, -⟩ := recognized?_declarationOrder_longestMatch definitionsOf_sharedEntries
    hlongest hdeclared ['a']
  obtain ⟨-, hlost⟩ := recognized?_declarationOrder_longestMatch definitionsOf_sharedEntries
    hlongest hdeclared ['a', 'e']
  exact ⟨definitionsOf_sharedEntries, a, b, hlongest, hdeclared,
    hshort 2 (recognized?_short hdeclared), hpair, recognized?_pair hdeclared,
    hlost 1 hpair (recognized?_pair hdeclared)⟩

/-- A text may be recognized although a beginning of it is recognized as a token defined
later. -/
theorem not_forall_recognized?_le_shared :
    definitionsOf sharedEntries = .ok sharedDefinitions ∧
      ¬∀ reject a, compile sharedDefinitions ⟨.declarationOrder, reject⟩ = .ok a →
        ∀ s t, a.recognized? s = some t →
          ∀ p t', p <+: s → p ≠ s → a.recognized? p = some t' → t' ≤ t := by
  refine ⟨definitionsOf_sharedEntries, fun hall => ?_⟩
  obtain ⟨a, hcompile⟩ := exists_compile_sharedDefinitions .declarationOrder
  have hle := hall false a hcompile ['a', 'c', 'd'] 0 (recognized?_long hcompile)
    ['a'] 2 ⟨['c', 'd'], rfl⟩ (by decide) (recognized?_short hcompile)
  exact absurd hle (by decide)

/-- A text that is recognized in declaration order is recognized as the last token that it is
a word of, and some word like the text without its last character stays below that token.
When a beginning of the text is recognized as a token defined later, that is another word.
A text of some token that is lost has a step to a token below which no word stays that is
like the one before the step. -/
theorem recognized?_declarationOrder_alike (hproper : ∀ d ∈ definitions, d.fragment.Proper)
    {reject : Bool} (hcompile : compile definitions ⟨.declarationOrder, reject⟩ = .ok a)
    (s : List Char) :
    (∀ c t, a.recognized? (s ++ [c]) = some t →
      IsGreatest {k | codes (s ++ [c]) ∈ tokenWords definitions k} t ∧
        ∃ v, Alike (tokenWords definitions) (codes s) v ∧
          StaysBelow (tokenWords definitions) t v ∧
            ∀ p t', p <+: s → a.recognized? p = some t' → t < t' → v ≠ codes s) ∧
    ∀ t, IsGreatest {k | codes s ∈ tokenWords definitions k} t → a.recognized? s = none →
      ∃ u c k, u ++ [c] <+: codes s ∧ IsGreatest {k | u ++ [c] ∈ tokenWords definitions k} k ∧
        ∀ v, Alike (tokenWords definitions) u v →
          ∃ q, q <+: v ∧ ∃ k', k < k' ∧ q ∈ tokenWords definitions k' := by
  refine ⟨fun c t hsome => ?_, fun t hgreatest hnone => ?_⟩
  · obtain ⟨hgreatest, hsurvives⟩ :=
      (recognized?_eq_some_iff_of_declarationOrder hproper hcompile).mp hsome
    have hlonger : codes (s ++ [c]) = codes s ++ [Code.ofChar c] := List.map_append
    rw [hlonger] at hgreatest hsurvives ⊢
    obtain ⟨v, halike, hbelow⟩ := (survives_concat.mp hsurvives).2 t hgreatest
    refine ⟨hgreatest, v, halike, hbelow, ?_⟩
    rintro p t' ⟨q, rfl⟩ hp hlt rfl
    obtain ⟨hp', -⟩ := (recognized?_eq_some_iff_of_declarationOrder hproper hcompile).mp hp
    have hle := hbelow (codes p) ⟨codes q, List.map_append.symm⟩ t' hp'.1
    omega
  · obtain ⟨u, c, k, hu, hk, hlost⟩ :=
      exists_step_of_recognized?_eq_none hproper hcompile hgreatest hnone
    exact ⟨u, c, k, hu, hk, fun v halike => not_staysBelow_iff.mp (hlost v halike)⟩

/-- The longest word of the first letter is kept thanks to that of the other, and the pair is
lost. -/
theorem recognized?_declarationOrder_long :
    (∀ d ∈ sharedDefinitions, d.fragment.Proper) ∧
      ∃ a, compile sharedDefinitions ⟨.declarationOrder, false⟩ = .ok a ∧
        a.recognized? ['a'] = some 2 ∧ a.recognized? ['a', 'c', 'd'] = some 0 ∧
          (∃ v, Alike (tokenWords sharedDefinitions) (codes ['a', 'c']) v ∧
            StaysBelow (tokenWords sharedDefinitions) 0 v ∧ v ≠ codes ['a', 'c']) ∧
          a.recognized? ['a', 'e'] = none ∧
            ∃ u c k, u ++ [c] <+: codes ['a', 'e'] ∧
              IsGreatest {k | u ++ [c] ∈ tokenWords sharedDefinitions k} k ∧
                ∀ v, Alike (tokenWords sharedDefinitions) u v →
                  ∃ q, q <+: v ∧ ∃ k', k < k' ∧ q ∈ tokenWords sharedDefinitions k' := by
  have hproper := proper_of_definitionsOf definitionsOf_sharedEntries
  obtain ⟨a, hcompile⟩ := exists_compile_sharedDefinitions .declarationOrder
  have hshort := recognized?_short hcompile
  have hlong := recognized?_long hcompile
  have hpair := recognized?_pair hcompile
  obtain ⟨hkept, -⟩ := recognized?_declarationOrder_alike hproper hcompile ['a', 'c']
  obtain ⟨-, hlost⟩ := recognized?_declarationOrder_alike hproper hcompile ['a', 'e']
  obtain ⟨-, v, halike, hbelow, hother⟩ := hkept 'd' 0 hlong
  have hgreatest : IsGreatest {k | codes ['a', 'e'] ∈ tokenWords sharedDefinitions k} 1 :=
    isGreatest_shared (mem_tokenWords_shared.mpr (by decide))
  exact ⟨hproper, a, hcompile, hshort, hlong,
    ⟨v, halike, hbelow, hother ['a'] 2 ⟨['c'], rfl⟩ hshort (by decide)⟩, hpair,
    hlost 1 hgreatest hpair⟩

end Munch

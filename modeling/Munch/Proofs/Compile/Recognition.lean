import Munch.Proofs.Compile.Build

/-!
# Where walks of an automaton lead

An automaton that was built has no state from which no token can be recognized any more.
So it can read on exactly as long as the text read is the beginning of a word of some token,
and in each state it recognizes the last of the tokens that the text read is a word of.

Main results:

- Theorem {lit}`Graph.Recognizes.exists_path_iff`: the words that can be read are the
  beginnings of words of tokens.
- Theorem {lit}`Automaton.accepting_eq_some_iff_of_walk`: the token of a state that a text
  leads to.
- Theorem {lit}`Automaton.recognized?_eq_some_iff_of_recognizes`: the token recognized for a
  text.
- Theorem {lit}`walk_recognizes_of_compile`: where the walks of an automaton lead that was
  built from the definitions of some entries.
-/

namespace Munch

open Reference (tokenWords)

/-! ## Beginnings of words -/

namespace Graph

variable {g : Graph} {tokens : Int → Language Int} {count : Nat} {u : List Int}

/-- What is read on the way to a state that is not the start can be continued. -/
theorem Standard.exists_accepts_append (hstd : g.Standard) {i : Nat} (hu : u ≠ [])
    (hpath : g.Path 0 u i) : ∃ v, g.Accepts 0 (u ++ v) := by
  have hi := hstd.closed.lt_of_path hstd.pos hpath
  obtain ⟨v, -, haccepts⟩ := hstd.live i hi (hstd.pos_of_path hu hpath)
  exact ⟨v, Accepts.of_path hpath haccepts⟩

/-- The words of characters that can be read are the beginnings of words of tokens, and the
empty one. -/
theorem Recognizes.exists_path_iff (hrec : g.Recognizes tokens) (hstd : g.Standard)
    (hends : g.EndsInMarkers count) (hchars : ∀ c ∈ u, c ∈ CodeSet.chars) :
    (∃ i, g.Path 0 u i) ↔ u = [] ∨ ∃ id, ∃ w ∈ tokens id, u <+: w := by
  constructor
  · rintro ⟨i, hpath⟩
    by_cases hu : u = []
    · exact Or.inl hu
    · obtain ⟨v, haccepts⟩ := hstd.exists_accepts_append hu hpath
      obtain ⟨id, w, hw, heq⟩ := hrec.sound _ haccepts
      -- What was read consists of characters, so the marker is behind it.
      have hv : v ≠ [] := by
        rintro rfl
        rw [List.append_nil] at haccepts
        exact hends.not_accepts hchars haccepts
      obtain ⟨v', -, rfl⟩ := exists_eq_concat_of_append_eq heq hv
      exact Or.inr ⟨id, _, hw, List.prefix_append u v'⟩
  · rintro (rfl | ⟨id, _, hw, v, rfl⟩)
    · exact ⟨0, Path.nil 0⟩
    · obtain ⟨later, -, haccepts⟩ := hrec.complete id _ hw
      rw [List.append_assoc] at haccepts
      obtain ⟨i, hpath, -⟩ := accepts_append_iff.mp haccepts
      exact ⟨i, hpath⟩

end Graph

/-! ## Walks -/

theorem mem_chars_of_mem_codes {s : List Char} : ∀ c ∈ codes s, c ∈ CodeSet.chars := by
  intro code hcode
  obtain ⟨c, -, rfl⟩ := List.mem_map.mp hcode
  exact Code.ofChar_mem_chars c

namespace Automaton

variable {a : Automaton} {i j : Nat} {s : List Char} {id : Int} {tokens : Int → Language Int}
  {count : Nat}

/-- A walk follows the path that its text spells. -/
theorem walk_eq_some_iff (hdet : a.graph.Deterministic) :
    a.walk i s = some j ↔ a.graph.Path i (codes s) j := by
  induction s generalizing i with
  | nil => simp [hdet.path_nil_iff, eq_comm]
  | cons c s ih =>
    have hchar : Code.ofChar c ≠ Code.silent :=
      (isLetter_of_mem_chars (Code.ofChar_mem_chars c)).2.2
    rw [walk_cons, codes_cons, hdet.path_cons_iff]
    simp only [Option.bind_eq_some_iff, step_eq_some_iff, ih]
    constructor
    · rintro ⟨_, ⟨e, he, hc, rfl⟩, hpath⟩
      exact ⟨e, he, hc, hchar, hpath⟩
    · rintro ⟨e, he, hc, -, hpath⟩
      exact ⟨e.target, ⟨e, he, hc, rfl⟩, hpath⟩

section Recognizes

variable (hrec : a.graph.Recognizes tokens)
include hrec

theorem isSome_walk_iff (hstd : a.graph.Standard) (hwell : a.graph.WellFormed count) :
    (a.walk a.start s).isSome = true ↔ s = [] ∨ ∃ id, ∃ w ∈ tokens id, codes s <+: w := by
  rw [Option.isSome_iff_exists]
  simp only [walk_eq_some_iff hstd.deterministic]
  apply (hrec.exists_path_iff hstd hwell.endsInMarkers mem_chars_of_mem_codes).trans
  rw [codes, List.map_eq_nil_iff]

variable (hwalk : a.walk a.start s = some i)
include hwalk

omit hrec in
/-- The markers in a state are accepted behind the text that leads there. -/
theorem marks_iff_of_walk :
    a.Marks i id ↔ a.graph.Accepts 0 (codes s ++ [Code.marker id]) := by
  have hwalk' : a.walk 0 s = some i := hwalk
  rw [accepts_marker_iff, hwalk']
  simp

/-- A state recognizes the last of the tokens that the text read is a word of. -/
theorem accepting_eq_some_iff_of_walk :
    a.accepting i = some id ↔ IsGreatest {k | codes s ∈ tokens k} id := by
  simp only [accepting_eq_some_iff, marks_iff_of_walk hwalk]
  exact Graph.Sound.isGreatest_marker_iff hrec.sound fun k hk => hrec.complete k _ hk

theorem accepting_eq_none_iff_of_walk :
    a.accepting i = none ↔ ∀ id, codes s ∉ tokens id := by
  simp only [accepting_eq_none_iff, marks_iff_of_walk hwalk]
  constructor
  · intro hnone id hid
    obtain ⟨later, -, haccepts⟩ := hrec.complete id _ hid
    exact hnone later haccepts
  · intro hnone id haccepts
    exact hnone id (hrec.mem_of_accepts haccepts)

end Recognizes

/-! ## Texts -/

theorem not_accepts_marker_of_walk_eq_none (hwalk : a.walk a.start s = none) (id : Int) :
    ¬a.graph.Accepts 0 (codes s ++ [Code.marker id]) := by
  intro haccepts
  obtain ⟨j, hj, -⟩ := accepts_marker_iff.mp haccepts
  have hwalk' : a.walk 0 s = none := hwalk
  rw [hwalk'] at hj
  cases hj

/-- What is recognized for a text is the largest token that is accepted behind it. -/
theorem recognized?_eq_some_iff :
    a.recognized? s = some id ↔
      IsGreatest {k | a.graph.Accepts 0 (codes s ++ [Code.marker k])} id := by
  rw [recognized?]
  cases hwalk : a.walk a.start s with
  | none =>
    have hnone := not_accepts_marker_of_walk_eq_none hwalk
    exact iff_of_false (by simp) fun hgreatest => hnone id hgreatest.1
  | some i => simp only [Option.bind_some, accepting_eq_some_iff, marks_iff_of_walk hwalk]

theorem recognized?_eq_none_iff :
    a.recognized? s = none ↔ ∀ id, ¬a.graph.Accepts 0 (codes s ++ [Code.marker id]) := by
  rw [recognized?]
  cases hwalk : a.walk a.start s with
  | none => exact iff_of_true rfl (not_accepts_marker_of_walk_eq_none hwalk)
  | some i => simp only [Option.bind_some, accepting_eq_none_iff, marks_iff_of_walk hwalk]

/-- An automaton that recognizes some tokens recognizes the last token that a text is a word
of. -/
theorem recognized?_eq_some_iff_of_recognizes (hrec : a.graph.Recognizes tokens) :
    a.recognized? s = some id ↔ IsGreatest {k | codes s ∈ tokens k} id := by
  rw [recognized?_eq_some_iff]
  exact Graph.Sound.isGreatest_marker_iff hrec.sound fun k hk => hrec.complete k _ hk

/-- A text that is a word of some token is recognized as that token or one defined later. -/
theorem exists_recognized?_eq_some (hrec : a.graph.Recognizes tokens) (hid : codes s ∈ tokens id) :
    ∃ later, a.recognized? s = some later ∧ id ≤ later := by
  cases hlater : a.recognized? s with
  | some later => exact ⟨later, rfl, ((recognized?_eq_some_iff_of_recognizes hrec).mp hlater).2 hid⟩
  | none =>
    obtain ⟨later, -, haccepts⟩ := hrec.complete id _ hid
    exact absurd haccepts (recognized?_eq_none_iff.mp hlater later)

end Automaton

/-! ## Automata that were built -/

/-- In an automaton built from the definitions of some entries in which the longest match
wins, a text can be read from the start on when it is empty or the beginning of a word of
some token.  The state to which it leads recognizes the last token that it is a word of, and
none when there is no such token. -/
theorem walk_recognizes_of_compile {entries : List ScriptEntry}
    {definitions : List TokenDefinition} (hdefinitions : definitionsOf entries = .ok definitions)
    {config : BuildConfig} (hpriority : config.priority = .longestMatch ∨ config.priority = .off)
    {a : Automaton} (hcompile : compile definitions config = .ok a) (s : List Char) :
    ((a.walk a.start s).isSome = true ↔
      s = [] ∨ ∃ id, ∃ w ∈ tokenWords definitions id, codes s <+: w) ∧
    ∀ i, a.walk a.start s = some i →
      (∀ id, a.accepting i = some id ↔ IsGreatest {k | codes s ∈ tokenWords definitions k} id) ∧
      (a.accepting i = none ↔ ∀ id, codes s ∉ tokenWords definitions id) := by
  have hproper := proper_of_definitionsOf hdefinitions
  have hmode : config.priority ≠ .declarationOrder := by
    rcases hpriority with hmode | hmode <;> simp [hmode]
  obtain ⟨-, hstd, hwell, hserves, -⟩ := built_of_compile hproper hcompile
  have hrec := hserves.recognizes hmode
  refine ⟨Automaton.isSome_walk_iff hrec hstd hwell, fun i hwalk => ⟨fun id => ?_, ?_⟩⟩
  · exact Automaton.accepting_eq_some_iff_of_walk hrec hwalk
  · exact Automaton.accepting_eq_none_iff_of_walk hrec hwalk

/-- The single word is the last token that its letters are a word of. -/
theorem isGreatest_key : IsGreatest {k | codes ['a', 'b'] ∈ tokenWords wordDefinitions k} 1 := by
  have hpattern : (Pattern.sequence (.codes (CodeSet.single 97))
      (.codes (CodeSet.single 98))).Over Fragment.Proper := by
    simp [Pattern.Over, Code.charLimit]
  have hblank : (Pattern.codes (CodeSet.single 32)).Over Fragment.Proper := by
    simp [Pattern.Over, Code.charLimit]
  constructor
  · refine ⟨_, List.mem_cons_of_mem _ List.mem_cons_self, rfl, ?_⟩
    rw [Pattern.matched_fragment hpattern]
    exact ⟨[97], ⟨97, rfl, by simp⟩, [98], ⟨98, rfl, by simp⟩, rfl⟩
  · rintro k ⟨d, hd, hid, hmatched⟩
    simp only [wordDefinitions, List.mem_cons, List.not_mem_nil, or_false] at hd
    rcases hd with rfl | rfl | rfl
    · cases hid
      decide
    · cases hid
      decide
    · rw [blanks, Pattern.matched_fragment hblank] at hmatched
      obtain ⟨c, hc, -⟩ := hmatched
      simp at hc

/-- Both kinds of words match, and the one defined last is recognized. -/
theorem walk_recognizes_key :
    definitionsOf wordEntries = .ok wordDefinitions ∧
      ∃ a i, compile wordDefinitions ⟨.longestMatch, false⟩ = .ok a ∧
        a.walk a.start ['a', 'b'] = some i ∧ a.accepting i = some 1 := by
  obtain ⟨a, hcompile⟩ := exists_compile_wordDefinitions
  obtain ⟨hread, haccepting⟩ :=
    walk_recognizes_of_compile definitionsOf_wordEntries (Or.inl rfl) hcompile ['a', 'b']
  have hsome := hread.mpr (Or.inr ⟨1, _, isGreatest_key.1, List.prefix_refl _⟩)
  obtain ⟨i, hwalk⟩ := Option.isSome_iff_exists.mp hsome
  exact ⟨definitionsOf_wordEntries, a, i, hcompile, hwalk,
    ((haccepting i hwalk).1 1).mpr isGreatest_key⟩

end Munch

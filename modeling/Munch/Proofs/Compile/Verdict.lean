import Munch.Proofs.Compile.Build

/-!
# What is wrong with tokens

A token that matches without input and a token that is never recognized are found by
looking at the labels of the graph that was built.  What is found can be said of the words
of the tokens: a token matches without input when the empty word is one of its words, and
it is never recognized when every word of it is a word of a token defined later.

Main results:

- Theorem {lit}`redundant_iff`: the tokens without a marker in the graph.
- Theorem {lit}`Outcome.zeroLength_iff` and theorem {lit}`Outcome.redundant_iff`: when each
  of the two is reported, and for which token.
- Theorem {lit}`compile_verdict`: what is reported for the definitions of some entries.
-/

namespace Munch

open Reference (tokenWords)

/-- There is a token with this id, and every word of it is a word of one defined later. -/
def Redundant (definitions : List TokenDefinition) (id : Int) : Prop :=
  (∃ d ∈ definitions, d.id = some id) ∧
    ∀ w ∈ tokenWords definitions id, ∃ later, id < later ∧ w ∈ tokenWords definitions later

variable {definitions : List TokenDefinition} {names : Array String} {name : String}
  {config : BuildConfig} {d : Graph} {result : Except BuildError Automaton}

/-! ## Names of tokens -/

/-- Words belong to the token of some definition. -/
theorem exists_definition_of_mem_tokenWords {id : Int} {w : List Int}
    (hw : w ∈ tokenWords definitions id) : ∃ d ∈ definitions, d.id = some id := by
  obtain ⟨d, hd, hid, -⟩ := hw
  exact ⟨d, hd, hid⟩

/-- An error gives the name of the only token with a property. -/
theorem exists_nameForError_eq_iff (hnames : tokenNames definitions = .ok names) {P : Int → Prop}
    (hdefined : ∀ id, P id → ∃ d ∈ definitions, d.id = some id) :
    (∃ id, P id ∧ nameForError names id = name) ↔
      ∃ d ∈ definitions, d.name = name ∧ ∃ id, d.id = some id ∧ P id := by
  constructor
  · rintro ⟨id, hid, rfl⟩
    obtain ⟨d, hd, hsome⟩ := hdefined id hid
    exact ⟨d, hd, (nameForError_eq hnames hd hsome).symm, id, hsome, hid⟩
  · rintro ⟨d, hd, rfl, id, hsome, hid⟩
    exact ⟨id, hid, nameForError_eq hnames hd hsome⟩

/-! ## Tokens that match without input -/

section ZeroLength

variable (houtcome : Outcome d names config result)
  (hserves : d.Serves config.priority (tokenWords definitions)) (hwell : d.WellFormed names.size)
include houtcome hserves hwell

/-- The last of the tokens that match without input is reported, whatever the
configuration. -/
theorem Outcome.zeroLength_iff :
    result = .error (.zeroLengthToken name) ↔
      ∃ id, IsGreatest {i | [] ∈ tokenWords definitions i} id ∧ nameForError names id = name := by
  have hsome : ∀ id, d.emptyMatch? 0 = some id ↔ IsGreatest {i | [] ∈ tokenWords definitions i} id :=
    fun id => hserves.emptyMatch?_eq_some_iff hwell
  simp only [← hsome]
  cases houtcome with
  | zeroLength hempty => simp [hempty]
  | redundant hempty => simp [hempty]
  | built hempty => simp [hempty]

/-- A token of length zero is refused iff some token matches the empty word. -/
theorem Outcome.exists_zeroLength_iff :
    (∃ name, result = .error (.zeroLengthToken name)) ↔ ∃ id, [] ∈ tokenWords definitions id := by
  have hnone := hserves.emptyMatch?_eq_none_iff hwell
  rw [← not_iff_not, not_exists, not_exists, ← hnone]
  cases houtcome with
  | zeroLength hempty => simp [hempty]
  | redundant hempty => simp [hempty]
  | built hempty => simp [hempty]

end ZeroLength

/-! ## Tokens that are never recognized -/

/-- When all tokens of a word are decided between, those without a marker in the graph are
those with no word of their own. -/
theorem redundant_iff (hrec : d.Recognizes (tokenWords definitions)) (hdecides : d.Decides)
    (hnames : tokenNames definitions = .ok names) {n : Nat} :
    Redundant definitions n ↔ n < names.size ∧ ∀ u, ¬d.Accepts 0 (u ++ [Code.marker n]) := by
  constructor
  · rintro ⟨⟨e, he, hid⟩, hcovered⟩
    obtain ⟨k, hk, hcast⟩ := lt_size_of_id hnames he hid
    obtain rfl := Int.ofNat_inj.mp hcast
    refine ⟨hk, fun u haccepts => ?_⟩
    -- The word has a later token, but the graph decides for this one.
    obtain ⟨later, hlater, hmem⟩ := hcovered u (hrec.mem_of_accepts haccepts)
    obtain ⟨last, hle, haccepts'⟩ := hrec.complete later u hmem
    have hcode := Code.marker_injective (hdecides u _ _ haccepts haccepts')
    omega
  · rintro ⟨hn, hnone⟩
    refine ⟨exists_definition_of_lt hnames hn, fun w hw => ?_⟩
    obtain ⟨later, hle, haccepts⟩ := hrec.complete n w hw
    refine ⟨later, ?_, hrec.mem_of_accepts haccepts⟩
    rcases Int.lt_or_eq_of_le hle with hlt | rfl
    · exact hlt
    · exact absurd haccepts (hnone w)

section Redundancy

variable (hnames : tokenNames definitions = .ok names)
include hnames

/-- A redundant token has a natural number as its id. -/
theorem exists_nat_of_redundant {id : Int} (hredundant : Redundant definitions id) :
    ∃ n : Nat, id = n ∧ Redundant definitions n := by
  obtain ⟨e, he, hid⟩ := hredundant.1
  obtain ⟨n, -, rfl⟩ := lt_size_of_id hnames he hid
  exact ⟨n, rfl, hredundant⟩

variable (hrec : d.Recognizes (tokenWords definitions)) (hdecides : d.Decides)
  (hwell : d.WellFormed names.size)
include hrec hdecides hwell

/-- The first token without a marker in the graph is the first one that is redundant. -/
theorem unrecognized?_eq_some_iff_isLeast {n : Nat} :
    unrecognized? d names.size = some n ↔ IsLeast {i | Redundant definitions i} n := by
  rw [hwell.unrecognized?_eq_some_iff]
  simp only [← redundant_iff hrec hdecides hnames]
  constructor
  · rintro ⟨hn, hleast⟩
    refine ⟨hn, fun i hi => ?_⟩
    obtain ⟨k, rfl, hk⟩ := exists_nat_of_redundant hnames hi
    exact Int.ofNat_le.mpr (hleast hk)
  · rintro ⟨hn, hleast⟩
    exact ⟨hn, fun k hk => Int.ofNat_le.mp (hleast hk)⟩

/-- Every token is recognized iff none is redundant. -/
theorem unrecognized?_eq_none_iff_forall :
    unrecognized? d names.size = none ↔ ∀ id, ¬Redundant definitions id := by
  rw [hwell.unrecognized?_eq_none_iff]
  constructor
  · intro hall id hredundant
    obtain ⟨n, rfl, hn⟩ := exists_nat_of_redundant hnames hredundant
    obtain ⟨hlt, hnone⟩ := (redundant_iff hrec hdecides hnames).mp hn
    obtain ⟨u, haccepts⟩ := hall n hlt
    exact hnone u haccepts
  · intro hall n hn
    by_contra hnone
    exact hall n ((redundant_iff hrec hdecides hnames).mpr ⟨hn, not_exists.mp hnone⟩)

variable (houtcome : Outcome d names config result) (hempty : d.emptyMatch? 0 = none)
include houtcome hempty

/-- The first token that is redundant is reported if this is an error. -/
theorem Outcome.redundant_iff :
    result = .error (.redundantToken name) ↔ config.rejectRedundant = true ∧
      ∃ id, IsLeast {i | Redundant definitions i} id ∧ nameForError names id = name := by
  have hsome : ∀ n : Nat, unrecognized? d names.size = some n ↔
      IsLeast {i | Redundant definitions i} n :=
    fun n => unrecognized?_eq_some_iff_isLeast hnames hrec hdecides hwell
  have hnone := unrecognized?_eq_none_iff_forall hnames hrec hdecides hwell
  cases houtcome with
  | zeroLength hzero => simp [hempty] at hzero
  | @redundant n _ hreject hmissing =>
    have hleast := (hsome n).mp hmissing
    simp only [Except.error.injEq, BuildError.redundantToken.injEq, hreject, true_and]
    constructor
    · intro hname
      exact ⟨n, hleast, hname⟩
    · rintro ⟨id, hid, hname⟩
      rwa [hid.unique hleast] at hname
  | built _ hkept =>
    simp only [reduceCtorEq, false_iff]
    rintro ⟨hreject, id, hid, -⟩
    exact hnone.mp (hkept hreject) id hid.1

/-- Something is reported when a token is redundant and this is an error, and otherwise
there is an automaton. -/
theorem Outcome.exists_redundant_or_ok :
    ((config.rejectRedundant = true ∧ ∃ id, Redundant definitions id) ∧
      ∃ name, result = .error (.redundantToken name)) ∨
    (¬(config.rejectRedundant = true ∧ ∃ id, Redundant definitions id) ∧
      ∃ a, result = .ok a) := by
  have hnone := unrecognized?_eq_none_iff_forall hnames hrec hdecides hwell
  cases houtcome with
  | zeroLength hzero => simp [hempty] at hzero
  | @redundant n _ hreject hmissing =>
    have hleast := (unrecognized?_eq_some_iff_isLeast hnames hrec hdecides hwell).mp hmissing
    exact Or.inl ⟨⟨hreject, n, hleast.1⟩, _, rfl⟩
  | built _ hkept =>
    refine Or.inr ⟨?_, _, rfl⟩
    rintro ⟨hreject, id, hid⟩
    exact hnone.mp (hkept hreject) id hid

end Redundancy

/-! ## The definitions of entries -/

/-- What is reported for the definitions of some entries, if they have one token at least
and a marker for each.  The last token that matches without input is reported in every
configuration.  If there is none and the longest match wins, the first token that is
redundant is reported where this is an error, and otherwise there is an automaton. -/
theorem compile_verdict {entries : List ScriptEntry}
    (hdefinitions : definitionsOf entries = .ok definitions) (hsome : 1 ≤ tokenCount definitions)
    (hmany : tokenCount definitions ≤ 9999) :
    (∀ config,
      (∀ name, compile definitions config = .error (.zeroLengthToken name) ↔
        ∃ d ∈ definitions, d.name = name ∧
          ∃ id, d.id = some id ∧ IsGreatest {i | [] ∈ tokenWords definitions i} id) ∧
      ((∃ name, compile definitions config = .error (.zeroLengthToken name)) ↔
        ∃ id, [] ∈ tokenWords definitions id)) ∧
    ∀ config, config.priority = .longestMatch → (∀ id, [] ∉ tokenWords definitions id) →
      (∀ name, compile definitions config = .error (.redundantToken name) ↔
        config.rejectRedundant = true ∧ ∃ d ∈ definitions, d.name = name ∧
          ∃ id, d.id = some id ∧ IsLeast {i | Redundant definitions i} id) ∧
      ((∃ name, compile definitions config = .error (.redundantToken name)) ↔
        config.rejectRedundant = true ∧ ∃ id, Redundant definitions id) ∧
      ((∃ a, compile definitions config = .ok a) ↔
        ¬(config.rejectRedundant = true ∧ ∃ id, Redundant definitions id)) := by
  have hproper := proper_of_definitionsOf hdefinitions
  obtain ⟨names, hnames⟩ := (Numbered.of_definitionsOf hdefinitions).exists_tokenNames_eq_ok hsome
    (by unfold maxTokenId; omega)
  refine ⟨fun config => ?_, fun config hmode hempty => ?_⟩
  · obtain ⟨d, -, hwell, hserves, houtcome⟩ := exists_outcome hproper hnames config
    refine ⟨fun name => ?_, houtcome.exists_zeroLength_iff hserves hwell⟩
    rw [houtcome.zeroLength_iff hserves hwell]
    exact exists_nameForError_eq_iff hnames fun id hid =>
      exists_definition_of_mem_tokenWords hid.1
  · obtain ⟨d, -, hwell, hserves, houtcome⟩ := exists_outcome hproper hnames config
    have hnone := (hserves.emptyMatch?_eq_none_iff hwell).mpr hempty
    have hrec := hserves.recognizes (by simp [hmode])
    have hdecides := hserves.decides (by simp [hmode])
    refine ⟨fun name => ?_, ?_⟩
    · rw [houtcome.redundant_iff hnames hrec hdecides hwell hnone]
      exact and_congr_right fun _ => exists_nameForError_eq_iff hnames fun id hid => hid.1.1
    · rcases houtcome.exists_redundant_or_ok hnames hrec hdecides hwell hnone with
        ⟨hredundant, name, hname⟩ | ⟨hredundant, a, ha⟩
      · simp [hname, hredundant]
      · simp [ha, hredundant]

/-- A single word. -/
def keyPattern : Pattern Fragment := .sequence (.codes (CodeSet.single 97)) (.codes (CodeSet.single 98))

/-- The words of its letters. -/
def letterPattern : Pattern Fragment := .repeated (.codes CodeSet.firstLetters) .oneOrMore

/-- A keyword, and a token defined later that has its word too. -/
def shadowedEntries : List ScriptEntry := [⟨"KEY", "ab", none⟩, ⟨"WORD", "[ab]+", none⟩]

/-- The definitions of `shadowedEntries`. -/
def shadowedDefinitions : List TokenDefinition :=
  [⟨"KEY", some 0, keyPattern.fragment⟩, ⟨"WORD", some 1, letterPattern.fragment⟩]

/-- They are what the entries define. -/
theorem definitionsOf_shadowedEntries :
    definitionsOf shadowedEntries = .ok shadowedDefinitions := by
  with_unfolding_all rfl

/-- The letters of the single word are letters of the others. -/
theorem through_key_le : keyPattern.through ≤ letterPattern.through := by
  have hletter : ∀ c ∈ CodeSet.firstLetters,
      Pattern.oneCode (CodeSet.single c) ≤ Pattern.oneCode CodeSet.firstLetters := by
    rintro c hc _ ⟨x, rfl, hx⟩
    rw [CodeSet.mem_single.mp hx]
    exact ⟨c, rfl, hc⟩
  have hfirst := hletter 97 (by decide)
  have hsecond := hletter 98 (by decide)
  exact mul_le_mul' hfirst (hsecond.trans le_kstar)

/-- The keyword is never recognized. -/
theorem redundant_key : Redundant shadowedDefinitions 0 := by
  have hkey : keyPattern.Over Fragment.Proper := by
    simp [keyPattern, Pattern.Over, Code.charLimit]
  have hletters : letterPattern.Over Fragment.Proper := by
    simp only [letterPattern, Pattern.Over, CodeSet.mem_firstLetters, CodeSet.mem_chars,
      Code.charLimit]
    omega
  refine ⟨⟨_, List.mem_cons_self, rfl⟩, fun w hw => ⟨1, by decide, ?_⟩⟩
  obtain ⟨d, hd, hid, hmatched⟩ := hw
  simp only [shadowedDefinitions, List.mem_cons, List.not_mem_nil, or_false] at hd
  rcases hd with rfl | rfl
  · rw [Pattern.matched_fragment hkey] at hmatched
    refine ⟨_, List.mem_cons_of_mem _ List.mem_cons_self, rfl, ?_⟩
    rw [Pattern.matched_fragment hletters]
    exact through_key_le hmatched
  · cases hid

/-- The single word is a word of the token defined later, so it is never recognized. -/
theorem compile_shadowed :
    definitionsOf shadowedEntries = .ok shadowedDefinitions ∧
      compile shadowedDefinitions ⟨.longestMatch, true⟩ = .error (.redundantToken "KEY") ∧
        ∃ a, compile shadowedDefinitions ⟨.longestMatch, false⟩ = .ok a := by
  have hproper := proper_of_definitionsOf definitionsOf_shadowedEntries
  have hnullable : shadowedDefinitions.all (fun d => !d.fragment.isNullable) = true := by cbv
  have hempty := nil_notMem_tokenWords hproper hnullable
  have hleast : IsLeast {i | Redundant shadowedDefinitions i} 0 := by
    refine ⟨redundant_key, fun i hi => ?_⟩
    obtain ⟨d, hd, hid⟩ := hi.1
    simp only [shadowedDefinitions, List.mem_cons, List.not_mem_nil, or_false] at hd
    rcases hd with rfl | rfl <;> cases hid <;> decide
  obtain ⟨-, hverdict⟩ :=
    compile_verdict definitionsOf_shadowedEntries (by decide) (by decide)
  refine ⟨definitionsOf_shadowedEntries, ?_, ?_⟩
  · exact ((hverdict _ rfl hempty).1 "KEY").mpr ⟨rfl, _, List.mem_cons_self, rfl, 0, rfl, hleast⟩
  · exact (hverdict ⟨.longestMatch, false⟩ rfl hempty).2.2.mpr (by simp)

end Munch

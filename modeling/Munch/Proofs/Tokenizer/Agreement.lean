import Mathlib.Tactic
import Munch.Proofs.Compile.Build
import Munch.Proofs.Tokenizer.Iteration
import Munch.Proofs.Tokenizer.Scan

/-!
# A tokenizer agrees with simulation

Walking over the tokens of a text with an automaton gives the pieces into which trying
every definition at every place cuts the text.

Main results:

- Theorem {lit}`Reference.BestOf.of_recognizes`: an automaton finds the best candidate of
  the tokens that it recognizes.
- Theorem {lit}`Automaton.Agrees.of_compile`: the scans of an automaton that was built
  agree with simulation.
- Theorem {lit}`Tokenizer.walks_of_ready`: what agrees in each scan agrees in a walk.
-/

namespace Munch

/-! ## One match -/

namespace Reference

variable {fits more : Candidate → Prop} {best : Option Candidate}

/-- Candidates that are never better than others can be added. -/
theorem BestOf.mono (hbest : BestOf fits best) (hmore : ∀ c, fits c → more c)
    (hfits : ∀ c, more c → ∃ d, fits d ∧ d.length = c.length ∧ c.id ≤ d.id) :
    BestOf more best := by
  cases best with
  | none =>
    intro c hc
    obtain ⟨d, hd, -⟩ := hfits c hc
    exact hbest d hd
  | some b =>
    refine ⟨hmore b hbest.holds, fun c hc => ?_⟩
    obtain ⟨d, hd, hlength, hid⟩ := hfits c hc
    have hle := hbest.le d hd
    omega

/-- An automaton finds the best candidate of the tokens that it recognizes. -/
theorem BestOf.of_recognizes {a : Automaton} {tokens : Int → Language Int} {s : List Char}
    (hrec : a.graph.Recognizes tokens) (hbest : BestOf (Fits a.tokenWords s) best) :
    BestOf (Fits tokens s) best := by
  refine hbest.mono ?_ ?_
  · rintro c ⟨hpos, hle, haccepts⟩
    exact ⟨hpos, hle, hrec.mem_of_accepts haccepts⟩
  · rintro c ⟨hpos, hle, hmem⟩
    obtain ⟨later, hid, haccepts⟩ := hrec.complete c.id _ hmem
    exact ⟨⟨later, c.length⟩, ⟨hpos, hle, haccepts⟩, rfl, hid⟩

end Reference

/-- Every scan of a text finds the match that simulation finds. -/
def Automaton.Agrees (a : Automaton) (definitions : List TokenDefinition) : Prop :=
  ∀ c s, ∃ best, scan a ((c :: s).map CharEvent.char) = .matched best ∧
    0 < (best.getD Tokenizer.unmatched).length ∧
    Reference.bestMatch definitions (c :: s) =
      ⟨(best.getD Tokenizer.unmatched).id, (best.getD Tokenizer.unmatched).length⟩

/-- An automaton that recognizes the tokens of definitions agrees with simulation. -/
theorem Automaton.Agrees.of_recognizes {a : Automaton} {definitions : List TokenDefinition}
    (hproper : ∀ d ∈ definitions, d.fragment.Proper)
    (hrec : a.graph.Recognizes (Reference.tokenWords definitions))
    (hstart : ∀ e ∈ a.graph.edges 0, a.graph.isFinal e.target = false) :
    a.Agrees definitions := by
  intro c s
  have hempty : ∀ id, ¬a.Marks 0 id := by
    rintro id ⟨e, he, hfinal, -⟩
    rw [hstart e he] at hfinal
    cases hfinal
  obtain ⟨best, hscan, hbest⟩ := Automaton.bestOf_scan hempty (c :: s)
  obtain ⟨expected, hexpected, hmatch⟩ :=
    Reference.exists_bestOf_bestMatch definitions hproper (c :: s)
  have heq := hexpected.unique (hbest.of_recognizes hrec)
  refine ⟨best, hscan, ?_, ?_⟩
  · cases best with
    | none => exact Nat.one_pos
    | some m => exact hbest.holds.1
  · rw [hmatch, heq]
    cases best with
    | none => rfl
    | some m => rfl

/-! ## A walk -/

namespace Tokenizer

variable {a : Automaton} {skipId : Option Int} {t : Tokenizer} {s : List Char}

/-- What agrees in each scan agrees in a walk. -/
theorem walks_of_ready {definitions : List TokenDefinition} (hagrees : a.Agrees definitions)
    (hready : Ready a skipId t s) :
    ∃ tokens, t.Walks tokens ∧
      tokens.map (fun token => (token.id, token.text)) =
        (Reference.tokenize definitions skipId s).map fun piece =>
          (piece.id, String.ofList piece.text) := by
  unfold Reference.tokenize
  fun_induction Reference.pieces definitions s generalizing t with
  | case1 => exact ⟨[], Walks.done hready.next_nil hready.next_nil, rfl⟩
  | case2 c s best =>
    rename_i ih
    obtain ⟨found, hscan, hpos, hbest⟩ := hagrees c s
    have hlook := hready.lookAhead_cons hscan hpos
    generalize found.getD unmatched = m at hpos hbest hlook
    change best = _ at hbest
    clear_value best
    subst hbest
    -- The match takes the first character and some more.
    have hplaces : m.length = (m.length - 1) + 1 := by omega
    have hrest : Ready a skipId (t.cut m).2 (s.drop (m.length - 1)) := by
      have hcut := hready.cut m
      rwa [hplaces, List.drop_succ_cons] at hcut
    have htext : (t.cut m).1.text = String.ofList (c :: s.take (m.length - 1)) := by
      rw [hready.text_cut, hplaces, List.take_succ_cons, Nat.add_sub_cancel]
    by_cases hskip : skipId = some m.id
    · rw [if_pos hskip] at hlook
      obtain ⟨tokens, hwalks, htokens⟩ := ih hrest
      refine ⟨tokens, Walks.of_lookAhead hlook hwalks, ?_⟩
      rw [List.filter_cons_of_neg (by simp [hskip])]
      exact htokens
    · rw [if_neg hskip] at hlook
      obtain ⟨after, hnext, hafter⟩ := hrest.next_push hlook
      obtain ⟨tokens, hwalks, htokens⟩ := ih hafter
      refine ⟨(t.cut m).1 :: tokens, Walks.step hnext hwalks, ?_⟩
      rw [List.filter_cons_of_pos (by simp [hskip]), List.map_cons, List.map_cons, htokens, htext]
      rfl

end Tokenizer

/-! ## From definitions to tokens -/

/-- The scans of an automaton that was built agree with simulation. -/
theorem Automaton.Agrees.of_compile {definitions : List TokenDefinition} {config : BuildConfig}
    {a : Automaton} (hproper : ∀ d ∈ definitions, d.fragment.Proper)
    (hmode : config.priority ≠ .declarationOrder)
    (hcompile : compile definitions config = .ok a) : a.Agrees definitions := by
  obtain ⟨-, hrec, hstart⟩ := recognizes_of_compile hmode hproper hcompile
  exact Automaton.Agrees.of_recognizes hproper hrec hstart

/-- With the definitions of some entries and an automaton built from them in which the
longest match wins, walking over the tokens of a text gives the pieces found by
simulation, without those of the token to be skipped, and then ends. -/
theorem walks_tokenize_of_compile {entries : List ScriptEntry}
    {definitions : List TokenDefinition} (hdefinitions : definitionsOf entries = .ok definitions)
    {config : BuildConfig} (hpriority : config.priority = .longestMatch ∨ config.priority = .off)
    {a : Automaton} (hcompile : compile definitions config = .ok a)
    {skipped : Option TokenDefinition}
    (hskipped : ∀ d ∈ skipped, d ∈ definitions ∧ d.id.isSome = true) (history chunk : Nat)
    (text : String) :
    ∃ t tokens,
      Tokenizer.ofText a ⟨skipped.map TokenDefinition.name, history, true, chunk⟩ text = .ok t ∧
        t.Walks tokens ∧
          tokens.map (fun token => (token.id, token.text)) =
            (Reference.tokenize definitions (skipped.bind TokenDefinition.id) text.toList).map
              fun piece => (piece.id, String.ofList piece.text) := by
  have hproper : ∀ d ∈ definitions, d.fragment.Proper := fun d hd =>
    (compiled_of_definitionsOf hdefinitions d hd).proper
  have hmode : config.priority ≠ .declarationOrder := by
    rcases hpriority with hmode | hmode <;> simp [hmode]
  obtain ⟨hnames, -⟩ := recognizes_of_compile hmode hproper hcompile
  have hskip := (NamesAre.of_tokenNames hnames).map_tokenId?_eq hskipped
  obtain ⟨t, ht, hready⟩ := Tokenizer.exists_ready_ofText hskip history chunk text
  have hagrees := Automaton.Agrees.of_compile hproper hmode hcompile
  obtain ⟨tokens, hwalks, htokens⟩ := Tokenizer.walks_of_ready hagrees hready
  exact ⟨t, tokens, ht, hwalks, htokens⟩

/-- The single word is the key, a longer one is a word, and the blank between them is
dropped. -/
theorem walks_tokenize_words :
    ∃ a t tokens, compile wordDefinitions ⟨.longestMatch, false⟩ = .ok a ∧
      Tokenizer.ofText a ⟨some "WS", 0, true, 0⟩ "ab abb?" = .ok t ∧ t.Walks tokens ∧
        tokens.map (fun token => (token.id, token.text)) = [(1, "ab"), (0, "abb"), (-1, "?")] := by
  obtain ⟨a, hcompile⟩ := exists_compile_wordDefinitions
  have hskipped : ∀ d ∈ some blanks, d ∈ wordDefinitions ∧ d.id.isSome = true := by
    intro d hd
    obtain rfl := Option.mem_some_iff.mp hd
    exact ⟨by simp [wordDefinitions], rfl⟩
  obtain ⟨t, tokens, ht, hwalks, htokens⟩ :=
    walks_tokenize_of_compile definitionsOf_wordEntries (Or.inl rfl) hcompile hskipped 0 0 "ab abb?"
  refine ⟨a, t, tokens, hcompile, ht, hwalks, htokens.trans ?_⟩
  cbv

end Munch

import Mathlib.Data.List.TakeWhile
import Munch.Proofs.Tokenizer.Effects

/-!
# Lines and columns

The place of a token is updated from the token before it, but it depends only on what stands in
front of the token in the text: the newlines there, and the characters behind the last of them.

Main results:

- Theorem {lit}`Position.advanceOver_eq`: a text can be counted at once.
- Theorem {lit}`Position.first_advance_take`: the place that is counted up to an offset.
- Theorem {lit}`Automaton.place_of_mem_munch`: the tokens of a text stand side by side in it, and
  the place of each is that of its first character.
- Theorem {lit}`Tokenizer.place_of_reached`: so it is for the tokens that a tokenizer knows at any
  time, and for the place where it goes on.
-/

namespace Munch
namespace Position

/-! ## Places in a text -/

/-- The place of the character at an offset in a text: its line is one more than the number of
newlines before it, and its column is one more than the number of characters behind the last of
these. -/
def ofOffset (s : List Char) (offset : Nat) : Position :=
  ⟨1 + (s.take offset).count '\n', 1 + ((s.take offset).reverse.takeWhile (· != '\n')).length⟩

example : ofOffset "ab\ncd".toList 4 = ⟨2, 2⟩ := by decide

/-- Counting a text at once is counting its characters one after the other. -/
theorem advanceOver_eq (p : Position) (s : List Char) :
    p.advanceOver s s.length = p.advance s := by
  induction s using List.reverseRecOn with
  | nil => rfl
  | append_singleton s c ih =>
    rw [advance_append, ← ih, advanceOver, advanceOver]
    by_cases hc : c = '\n'
    · subst hc
      by_cases hs : '\n' ∈ s
      · simp [hs, advance, after, Nat.add_assoc]
      · simp [hs, advance, after, List.count_eq_zero_of_not_mem hs]
    · by_cases hs : '\n' ∈ s
      · simp [hs, hc, advance, after]
      · simp [hs, hc, Ne.symm hc, advance, after, Nat.add_assoc]

/-- Counting from the first character gives the place behind a text. -/
theorem first_advance (s : List Char) : first.advance s = ofOffset s s.length := by
  rw [← advanceOver_eq, advanceOver, ofOffset, List.take_length, first]
  split
  · rw [Nat.add_comm 1 (List.length _)]
  · rename_i hs
    have hwhole : s.reverse.takeWhile (· != '\n') = s.reverse := by
      rw [List.takeWhile_eq_self_iff]
      intro c hc
      rw [bne_iff_ne]
      rintro rfl
      exact hs (List.mem_reverse.mp hc)
    rw [List.count_eq_zero_of_not_mem hs, hwhole, List.length_reverse]

/-- Counting up to an offset gives its place. -/
theorem first_advance_take (s : List Char) (offset : Nat) :
    first.advance (s.take offset) = ofOffset s offset := by
  rw [first_advance, ofOffset, ofOffset, List.take_length]

end Position

/-! ## The tokens of a text in it -/

/-- Tokens that stand side by side from some offset on, with the offsets of their first
characters. -/
def Token.withOffsets (offset : Nat) : List Token → List (Nat × Token)
  | [] => []
  | token :: rest => (offset, token) :: withOffsets (offset + token.length) rest

theorem Token.map_snd_withOffsets (offset : Nat) (tokens : List Token) :
    (withOffsets offset tokens).map Prod.snd = tokens := by
  induction tokens generalizing offset with
  | nil => rfl
  | cons token rest ih => rw [withOffsets, List.map_cons, ih]

namespace Automaton

variable {a : Automaton}

/-- The tokens of a text make it up. -/
theorem flatMap_text_munch (a : Automaton) (p : Position) (s : List Char) :
    (a.munch p s).flatMap (fun token => token.text.toList) = s := by
  fun_induction munch a p s with
  | case1 p => rfl
  | case2 p c s found text ih =>
    rw [List.flatMap_cons, ih, String.toList_ofList, List.cons_append, List.take_append_drop]

/-- Each token of a text stands at its offset, and its place is that of the offset. -/
theorem place_of_mem_munch {before s : List Char} {piece : Nat × Token}
    (hmem : piece ∈ Token.withOffsets before.length (a.munch (Position.first.advance before) s)) :
    piece.2.text.toList <+: (before ++ s).drop piece.1 ∧
      piece.2.position = Position.ofOffset (before ++ s) piece.1 := by
  generalize hp : Position.first.advance before = p at hmem
  fun_induction munch a p s generalizing before with
  | case1 p => cases hmem
  | case2 =>
    rename_i p c s found text ih
    have hsplit : text ++ s.drop (found.length - 1) = c :: s := by
      rw [List.cons_append, List.take_append_drop]
    rw [Token.withOffsets, List.mem_cons] at hmem
    rcases hmem with rfl | hmem
    · refine ⟨?_, ?_⟩
      · rw [List.drop_left, String.toList_ofList, ← hsplit]
        exact List.prefix_append _ _
      · rw [← Position.first_advance_take, List.take_left]
        exact hp.symm
    · have hlength : before.length + (String.ofList text).length = (before ++ text).length := by
        rw [List.length_append, String.length_ofList]
      have hplace : Position.first.advance (before ++ text) = p.advance text := by
        rw [Position.advance_append, hp]
      have hnext := ih hplace (hlength ▸ hmem)
      rwa [List.append_assoc, hsplit] at hnext

end Automaton

/-! ## The tokens that a tokenizer knows -/

namespace Tokenizer

variable {t after : Tokenizer} {s : List Char} {found : Match}

/-- A tokenizer has scanned the beginning of a text, and its place is behind that. -/
def Scanned (s : List Char) (t : Tokenizer) : Prop :=
  ∃ before rest, s = before ++ rest ∧ t.input = rest.map CharEvent.char ∧
    t.position = Position.first.advance before

theorem Scanned.cut (hscanned : t.Scanned s) (found : Match) : (t.cut found).2.Scanned s := by
  obtain ⟨before, rest, rfl, hinput, hposition⟩ := hscanned
  refine ⟨before ++ rest.take found.length, rest.drop found.length, ?_, ?_, ?_⟩
  · rw [List.append_assoc, List.take_append_drop]
  · rw [input_cut, hinput, List.map_drop]
  · have htext : (t.input.take found.length).filterMap CharEvent.char? =
        rest.take found.length := by
      rw [hinput, ← List.map_take, List.filterMap_map]
      exact List.filterMap_some
    rw [Position.advance_append, ← hposition, ← htext]
    rfl

theorem Scanned.lookAhead (hscanned : t.Scanned s) (pinned : Bool) :
    (t.lookAhead pinned).2.Scanned s := by
  fun_induction Tokenizer.lookAhead pinned t with
  | case1 t | case2 t | case4 t | case6 t | case8 t => exact hscanned
  | case3 t hupcoming message tail hinput =>
    -- No failure comes from a text.
    obtain ⟨before, rest, rfl, hrest, -⟩ := hscanned
    rw [hinput] at hrest
    cases rest <;> cases hrest
  | case5 t hupcoming c tail hinput offset message hscan =>
    obtain ⟨before, rest, rfl, hrest, -⟩ := hscanned
    obtain ⟨best, hbest, -⟩ := t.automaton.latest_scanFrom t.automaton.start 0 none rest
    rw [scan, hrest, hbest] at hscan
    cases hscan
  | case7 t hupcoming c tail hinput best hscan found next hskip hlength ih =>
    exact ih (hscanned.cut found)
  | case9 t hupcoming c tail hinput best hscan found next hskip => exact hscanned.cut found

theorem invariant_scanned (s : List Char) (pinned : Bool) : Invariant pinned (Scanned s) where
  lookAhead h := h.lookAhead pinned
  stepForward := by
    rintro t ⟨before, rest, hs, hinput, hposition⟩
    unfold stepForward
    split
    · exact ⟨before, rest, hs, hinput, hposition⟩
    · exact ⟨before, rest, hs, hinput, hposition⟩
  stepBack _ h := h

theorem scanned_of_ofText {a : Automaton} {config : TokenizerConfig} {text : String}
    (hcreate : ofText a config text = .ok t) : t.Scanned text.toList := by
  have hscanned : ∀ u : Tokenizer, u.input = CharEvent.ofSource (max config.chunk 4)
      [.bytes text.toUTF8.data.toList] → u.position = Position.first → u.Scanned text.toList := by
    intro u hinput hposition
    refine ⟨[], text.toList, rfl, ?_, hposition⟩
    rw [hinput, CharEvent.ofSource_toUTF8]
  unfold ofText create at hcreate
  split at hcreate
  · cases hcreate
    exact hscanned _ rfl rfl
  · split at hcreate
    · cases hcreate
      exact hscanned _ rfl rfl
    · cases hcreate

/-- Where no token is known, scanning goes on at the offset of the characters that are left. -/
theorem Scanned.place (hscanned : t.Scanned s) (hunknown : t.upcoming = []) :
    t.input = (s.drop (s.length - t.input.length)).map CharEvent.char ∧
      t.place = Position.ofOffset s (s.length - t.input.length) := by
  obtain ⟨before, rest, rfl, hinput, hposition⟩ := hscanned
  have hoffset : (before ++ rest).length - t.input.length = before.length := by
    rw [hinput, List.length_map, List.length_append, Nat.add_sub_cancel]
  rw [hoffset, List.drop_left, ← Position.first_advance_take, List.take_left, Tokenizer.place,
    hunknown]
  exact ⟨hinput, hposition⟩

/-- The tokens of a text stand side by side in it, and the place of each is that of the offset of
its first character.  Between any two steps of the uses of a tokenizer for the text, the tokens
that it knows are some of them that follow one another when the dropped ones are left out, and
its place is that of the next one, or that of the offset where scanning goes on. -/
theorem place_of_reached {a : Automaton} (hstart : a.accepting a.start = none)
    {config : TokenizerConfig} {text : String} {t : Tokenizer}
    (hcreate : ofText a config text = .ok t) :
    let s := text.toList
    let pieces := Token.withOffsets 0 (a.munch Position.first s)
    let kept := pieces.filter fun piece => config.skip.bind a.tokenId? != some piece.2.id
    (pieces.flatMap (fun piece => piece.2.text.toList) = s ∧
      ∀ piece ∈ pieces, piece.2.text.toList <+: s.drop piece.1) ∧
    (∀ uses, t.Reached (Use.after t uses)) ∧
    ∀ u, t.Reached u → ∃ lo,
      (∀ i token, u.tokens[i]? = some token → ∃ p, kept[lo + i]? = some (p, token) ∧
        token.position = Position.ofOffset s p) ∧
      (∀ token, u.upcoming.head? = some token →
        ∃ p, kept[lo + u.past.length]? = some (p, token) ∧ u.place = Position.ofOffset s p) ∧
      (u.upcoming = [] → u.input = (s.drop (s.length - u.input.length)).map CharEvent.char ∧
        u.place = Position.ofOffset s (s.length - u.input.length)) := by
  intro s pieces kept
  have hpieces : ∀ piece ∈ pieces, piece.2.text.toList <+: s.drop piece.1 ∧
      piece.2.position = Position.ofOffset s piece.1 := fun piece hmem =>
    @Automaton.place_of_mem_munch a [] s piece hmem
  have hmunch : pieces.map Prod.snd = a.munch Position.first s := Token.map_snd_withOffsets 0 _
  have hkept : kept.map Prod.snd = a.stream (config.skip.bind a.tokenId?) Position.first s := by
    rw [Automaton.stream, ← hmunch, List.filter_map]
    rfl
  refine ⟨⟨?_, fun piece hmem => (hpieces piece hmem).1⟩, Use.reached_after t, fun u hu => ?_⟩
  · rw [← a.flatMap_text_munch Position.first s, ← hmunch, List.flatMap_map]
  · obtain ⟨place, hstands⟩ := hu.of_invariant (invariant_stands a config.acceptUnknown _)
      ⟨0, stands_of_ofText hstart hcreate⟩
    obtain ⟨lo, -, -, behind, hblock⟩ := hstands.exists_block
    have hknown : ∀ i token, u.tokens[i]? = some token → ∃ p, kept[lo + i]? = some (p, token) ∧
        token.position = Position.ofOffset s p := by
      intro i token htoken
      obtain ⟨hi, -⟩ := List.getElem?_eq_some_iff.mp htoken
      rw [← List.getElem?_append_left hi, hblock, List.getElem?_drop, ← hkept, List.getElem?_map,
        Option.map_eq_some_iff] at htoken
      obtain ⟨⟨p, token⟩, hpiece, rfl⟩ := htoken
      exact ⟨p, hpiece, (hpieces _ (List.mem_of_mem_filter (List.mem_of_getElem? hpiece))).2⟩
    refine ⟨lo, hknown, fun token hhead => ?_, ?_⟩
    · have hnext : u.tokens[u.past.length]? = some token := by
        rw [tokens, List.getElem?_append_right (by simp), List.length_reverse, Nat.sub_self,
          ← List.head?_eq_getElem?, hhead]
      obtain ⟨p, hpiece, hposition⟩ := hknown _ token hnext
      refine ⟨p, hpiece, ?_⟩
      rw [Tokenizer.place, hhead]
      exact hposition
    · exact (hu.of_invariant (invariant_scanned s) (scanned_of_ofText hcreate)).place

/-- A tokenizer in front of words on two lines, which keeps no tokens. -/
def twoLinesTokenizer : Tokenizer :=
  { letterWordsTokenizer with
    acceptUnknown := true
    input := "a\nab b".toList.map CharEvent.char }

/-- The last word is the sixth character of the text, and the fourth of its line. -/
theorem place_twoLines :
    Automaton.letterWords.accepting Automaton.letterWords.start = none ∧
      ofText Automaton.letterWords ⟨some "WS", 0, true, 4⟩ "a\nab b" = .ok twoLinesTokenizer ∧
        ∃ u, u = Use.after twoLinesTokenizer [.read, .next, .read, .peek] ∧
          u.place = ⟨2, 4⟩ ∧ u.place = Position.ofOffset "a\nab b".toList 5 := by
  have hstart : Automaton.letterWords.accepting Automaton.letterWords.start = none := rfl
  have hcreate : ofText Automaton.letterWords ⟨some "WS", 0, true, 4⟩ "a\nab b" =
      .ok twoLinesTokenizer := by
    with_unfolding_all rfl
  obtain ⟨-, hreached, hplaces⟩ := place_of_reached hstart hcreate
  obtain ⟨lo, -, hnext, -⟩ := hplaces _ (hreached [.read, .next, .read, .peek])
  have hhead : (Use.after twoLinesTokenizer [.read, .next, .read, .peek]).upcoming.head? =
      some ⟨0, "b", ⟨2, 4⟩⟩ := by
    decide +kernel
  obtain ⟨p, hpiece, hplace⟩ := hnext _ hhead
  have hpieces : Token.withOffsets 0 (Automaton.letterWords.munch Position.first
      "a\nab b".toList) = [(0, ⟨0, "a", ⟨1, 1⟩⟩), (1, ⟨unknownToken, "\n", ⟨1, 2⟩⟩),
        (2, ⟨0, "ab", ⟨2, 1⟩⟩), (4, ⟨1, " ", ⟨2, 3⟩⟩), (5, ⟨0, "b", ⟨2, 4⟩⟩)] := by
    decide +kernel
  have hmem := List.mem_of_mem_filter (List.mem_of_getElem? hpiece)
  rw [hpieces] at hmem
  obtain rfl : p = 5 := by simpa using hmem
  refine ⟨hstart, hcreate, _, rfl, ?_, hplace⟩
  rw [Tokenizer.place, hhead]
  rfl

end Tokenizer
end Munch

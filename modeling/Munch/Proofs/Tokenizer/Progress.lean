import Mathlib.Data.List.Basic
import Munch.Proofs.Automaton.Encoding
import Munch.Proofs.Tokenizer.Standing

/-!
# Progress

A token that is dropped must have characters, or else looking for the next token never ends,
and one that is read must have some, or else a walk over the tokens never does.  An automaton
that recognizes a token at its start takes no characters where no other token is recognized.

Main results:

- Theorem {lit}`Automaton.takes_nothing_iff`: where a token without characters is taken.
- Theorem {lit}`Tokenizer.ends_of_progresses` and {lit}`Tokenizer.exists_iterates`: if what is
  taken has characters, looking ahead ends, and so does a walk, after no more items than there
  are characters.
- Theorem {lit}`Tokenizer.not_iterates`: a token without characters comes again for ever.
- Theorem {lit}`Automaton.progresses_or_stuck`: which automata make progress.
-/

namespace Munch
namespace Automaton

variable {a : Automaton} {s : List Char} {m : Match} {id : Int}

/-! ## What is taken -/

/-- The match that is taken in front of a text: that of a scan, or one character if there is
none. -/
def Takes (a : Automaton) (s : List Char) (m : Match) : Prop :=
  ∃ best, scan a (s.map CharEvent.char) = .matched best ∧ best.getD Tokenizer.unmatched = m

/-- What is taken before the end of a text has characters. -/
def Progresses (a : Automaton) : Prop :=
  ∀ s m, s ≠ [] → a.Takes s m → 0 < m.length

/-- At each place of a text something is taken. -/
theorem exists_takes (a : Automaton) (s : List Char) : ∃ m, a.Takes s m := by
  obtain ⟨best, hbest, -⟩ := a.latest_scanFrom a.start 0 none s
  exact ⟨_, best, hbest, rfl⟩

/-- A match is found at the end of a beginning for which its token is recognized. -/
theorem found_iff_recognized? {n : Nat} : a.Found a.start 0 s n m ↔
    n ≤ s.length ∧ a.recognized? (s.take n) = some m.id ∧ m.length = n := by
  simp only [Found, recognized?, Option.bind_eq_some_iff, Nat.zero_add]
  constructor
  · rintro ⟨hle, j, hwalk, haccepting, hlength⟩
    exact ⟨hle, ⟨j, hwalk, haccepting⟩, hlength⟩
  · rintro ⟨hle, ⟨j, hwalk, haccepting⟩, hlength⟩
    exact ⟨hle, j, hwalk, haccepting, hlength⟩

/-- A token without characters is taken if the start recognizes it and no beginning of the
text is recognized. -/
theorem takes_nothing_iff : a.Takes s ⟨id, 0⟩ ↔
    a.accepting a.start = some id ∧
      ∀ k, 0 < k → k ≤ s.length → a.recognized? (s.take k) = none := by
  obtain ⟨result, hresult, hlatest⟩ := a.latest_scanFrom a.start 0 none s
  simp only [Latest, found_iff_recognized?] at hlatest
  constructor
  · rintro ⟨best, hbest, htaken⟩
    obtain rfl : result = best := by
      rw [scan, hresult] at hbest
      cases hbest
      rfl
    rcases hlatest with ⟨rfl, -⟩ | ⟨n, m, rfl, ⟨-, hid, hlength⟩, hlast⟩
    · cases htaken
    · obtain rfl : m = ⟨id, 0⟩ := htaken
      obtain rfl : 0 = n := hlength
      refine ⟨hid, fun k hpos hle => ?_⟩
      cases hother : a.recognized? (s.take k) with
      | none => rfl
      | some other =>
        have hzero := hlast k ⟨other, k⟩ ⟨hle, hother, rfl⟩
        omega
  · rintro ⟨hstart, hnone⟩
    rcases hlatest with ⟨-, hnothing⟩ | ⟨n, m, rfl, ⟨hle, hid, hlength⟩, -⟩
    · exact absurd ⟨Nat.zero_le _, hstart, rfl⟩ (hnothing 0 ⟨id, 0⟩)
    · cases n with
      | zero =>
        rw [List.take_zero] at hid
        obtain rfl : id = m.id := Option.some.inj (hstart.symm.trans hid)
        exact ⟨some m, hresult, congrArg (Match.mk m.id) hlength⟩
      | succ n =>
        rw [hnone (n + 1) (Nat.succ_pos n) hle] at hid
        cases hid

/-- An automaton makes progress if its start recognizes nothing, or if every character is a
token. -/
theorem progresses_iff :
    a.Progresses ↔ a.accepting a.start = none ∨ ∀ c, (a.recognized? [c]).isSome = true := by
  constructor
  · intro hprogresses
    cases hstart : a.accepting a.start with
    | none => exact Or.inl rfl
    | some id =>
      refine Or.inr fun c => ?_
      by_contra hnone
      have htakes : a.Takes [c] ⟨id, 0⟩ := by
        refine takes_nothing_iff.mpr ⟨hstart, fun k hpos hle => ?_⟩
        obtain rfl : k = 1 := Nat.le_antisymm hle hpos
        simpa using hnone
      exact absurd (hprogresses [c] _ (List.cons_ne_nil c []) htakes) (Nat.lt_irrefl 0)
  · rintro hone s ⟨id, length⟩ hs htakes
    refine Nat.pos_of_ne_zero fun hzero => ?_
    obtain rfl : length = 0 := hzero
    obtain ⟨hstart, hnone⟩ := takes_nothing_iff.mp htakes
    rcases hone with hstart' | hevery
    · rw [hstart] at hstart'
      cases hstart'
    · obtain ⟨c, s, rfl⟩ := List.exists_cons_of_ne_nil hs
      have hc := hevery c
      have hnothing : a.recognized? [c] = none := hnone 1 Nat.one_pos (by simp)
      rw [hnothing] at hc
      cases hc

end Automaton

namespace Tokenizer

variable {t after : Tokenizer} {s : List Char} {m : Match} {id : Int}

/-! ## Turns -/

/-- No token is known, and the one in front of the input is dropped. -/
def Drops (t after : Tokenizer) : Prop :=
  t.upcoming = [] ∧ t.input ≠ [] ∧ ∃ best, scan t.automaton t.input = .matched best ∧
    t.skipId = some (best.getD unmatched).id ∧ (t.cut (best.getD unmatched)).2 = after

/-- Looking ahead ends: it does not drop tokens for ever. -/
def Ends (t : Tokenizer) : Prop := Acc (fun after before => before.Drops after) t

/-- A walk over the tokens has some number of items, each of which is found, and then it
ends. -/
inductive Iterates : Tokenizer → Nat → Prop where
  | done {t after : Tokenizer} (hends : t.Ends) (hnext : t.next = (none, after)) : Iterates t 0
  | item {t after : Tokenizer} {item : Except TokenizerError Token} {n : Nat} (hends : t.Ends)
      (hnext : t.next = (some item, after)) (hrest : Iterates after n) : Iterates t (n + 1)

/-- What is dropped is what is taken in front of the text. -/
theorem Drops.exists_takes (hdrops : t.Drops after) (hinput : t.input = s.map CharEvent.char) :
    s ≠ [] ∧ ∃ m, t.automaton.Takes s m ∧ (t.cut m).2 = after := by
  obtain ⟨-, hne, best, hscan, -, hafter⟩ := hdrops
  rw [hinput] at hne hscan
  exact ⟨fun hs => hne (hs ▸ rfl), _, ⟨best, hscan, rfl⟩, hafter⟩

/-- Cutting off a match takes its characters from a text. -/
theorem input_cut_of_text (hinput : t.input = s.map CharEvent.char) (m : Match) :
    (t.cut m).2.input = (s.drop m.length).map CharEvent.char := by
  rw [input_cut, hinput, List.map_drop]

/-- If what is taken has characters, looking ahead in a text ends. -/
theorem ends_of_progresses (hprogresses : t.automaton.Progresses)
    (hinput : t.input = s.map CharEvent.char) : t.Ends := by
  -- What is dropped makes the text shorter.
  induction hlength : s.length using Nat.strong_induction_on generalizing t s with
  | _ n ih =>
    refine Acc.intro t fun after hdrops => ?_
    obtain ⟨hs, m, htakes, rfl⟩ := hdrops.exists_takes hinput
    have hpos := hprogresses s m hs htakes
    have hsome := List.length_pos_iff.mpr hs
    refine ih _ ?_ hprogresses (input_cut_of_text hinput m) rfl
    rw [List.length_drop, ← hlength]
    omega

/-! ## Items -/

/-- A match that is not dropped comes next. -/
theorem lookAhead_taken (hupcoming : t.upcoming = []) (hinput : t.input = s.map CharEvent.char)
    (hs : s ≠ []) (htakes : t.automaton.Takes s m) (hskip : t.skipId ≠ some m.id)
    (pinned : Bool) : t.lookAhead pinned = (.ok true, (t.cut m).2.push pinned (t.cut m).1) := by
  obtain ⟨best, hscan, rfl⟩ := htakes
  obtain ⟨c, s, rfl⟩ := List.exists_cons_of_ne_nil hs
  rw [← hinput] at hscan
  rw [lookAhead_matched hupcoming hinput hscan, if_neg hskip]

/-- Where looking ahead finds the end, a walk ends. -/
theorem next_of_end (hlook : t.lookAhead false = (.ok false, after)) :
    t.next = (none, after) := by
  unfold next
  rw [hlook]

/-- Where looking ahead finds a token, there is an item, and the walk goes on behind it, also
if the token may not be read. -/
theorem exists_next_of_token (hlook : t.lookAhead false = (.ok true, after))
    (hupcoming : after.upcoming ≠ []) : ∃ item, t.next = (some item, after.stepForward) := by
  obtain ⟨token, rest, hcons⟩ := List.exists_cons_of_ne_nil hupcoming
  have hread := run_readMatching .any (lookAhead_of_known hupcoming false)
  rw [hcons, List.head?_cons] at hread
  unfold next
  rw [hlook]
  simp only [Reading.read, hread]
  cases hanswer : Selector.any.answer after.automaton after.acceptUnknown (some token) with
  | ok token => exact ⟨_, rfl⟩
  | error e =>
    obtain rfl := Selector.answer_any_eq_error hanswer
    exact ⟨_, rfl⟩

/-- If what is taken has characters, looking ahead in a text finds the end or a token, and
there are no more items to come than before. -/
theorem exists_lookAhead_of_progresses (hprogresses : t.automaton.Progresses)
    (hinput : t.input = s.map CharEvent.char) :
    (∃ after, t.lookAhead false = (.ok false, after)) ∨
      ∃ (after : Tokenizer) (rest : List Char), t.lookAhead false = (.ok true, after) ∧
        after.upcoming ≠ [] ∧ after.automaton = t.automaton ∧
          after.input = rest.map CharEvent.char ∧
            after.upcoming.length + rest.length ≤ t.upcoming.length + s.length := by
  induction hlength : s.length using Nat.strong_induction_on generalizing t s with
  | _ n ih =>
    subst hlength
    by_cases hupcoming : t.upcoming = []
    · by_cases hs : s = []
      · subst hs
        exact Or.inl ⟨t, lookAhead_nil hupcoming hinput⟩
      · obtain ⟨m, htakes⟩ := t.automaton.exists_takes s
        have hpos := hprogresses s m hs htakes
        have hsome := List.length_pos_iff.mpr hs
        have hrest := input_cut_of_text hinput m
        by_cases hskip : t.skipId = some m.id
        · obtain ⟨best, hscan, rfl⟩ := htakes
          obtain ⟨c, cs, hcons⟩ := List.exists_cons_of_ne_nil hs
          have hchar : t.input = .char c :: cs.map CharEvent.char := by
            rw [hinput, hcons, List.map_cons]
          rw [lookAhead_matched hupcoming hchar (hinput ▸ hscan), if_pos hskip, if_pos hpos]
          have hshorter : (s.drop (best.getD unmatched).length).length < s.length := by
            rw [List.length_drop]
            omega
          have hsame : (t.cut (best.getD unmatched)).2.automaton.Progresses := hprogresses
          rcases ih _ hshorter hsame hrest rfl with hend | ⟨after, rest, hfound⟩
          · exact Or.inl hend
          · obtain ⟨hlook, hne, hautomaton, htext, hle⟩ := hfound
            refine Or.inr ⟨after, rest, hlook, hne, hautomaton, htext, hle.trans ?_⟩
            exact Nat.add_le_add_left hshorter.le _
        · refine Or.inr ⟨_, _, lookAhead_taken hupcoming hinput hs htakes hskip false,
            List.cons_ne_nil _ _, rfl, hrest, ?_⟩
          have hone : ((t.cut m).2.push false (t.cut m).1).upcoming.length = 1 := rfl
          rw [hone, List.length_drop]
          omega
    · exact Or.inr ⟨t, s, lookAhead_of_known hupcoming false, hupcoming, rfl, hinput,
        Nat.le_refl _⟩

/-- If what is taken has characters, a walk over a text ends, after no more items than there
are known tokens and characters. -/
theorem exists_iterates (hprogresses : t.automaton.Progresses)
    (hinput : t.input = s.map CharEvent.char) :
    ∃ n, n ≤ t.upcoming.length + s.length ∧ t.Iterates n := by
  induction hlength : t.upcoming.length + s.length using Nat.strong_induction_on
    generalizing t s with
  | _ total ih =>
    have hends := ends_of_progresses hprogresses hinput
    rcases exists_lookAhead_of_progresses hprogresses hinput with
      ⟨after, hlook⟩ | ⟨after, rest, hlook, hne, hautomaton, htext, hle⟩
    · exact ⟨0, Nat.zero_le _, Iterates.done hends (next_of_end hlook)⟩
    · obtain ⟨item, hnext⟩ := exists_next_of_token hlook hne
      obtain ⟨token, tokens, hcons⟩ := List.exists_cons_of_ne_nil hne
      have hstep : after.stepForward =
          { after with past := token :: after.past, upcoming := tokens } := by
        rw [stepForward, hcons]
      rw [hcons, List.length_cons] at hle
      have hfewer : after.stepForward.upcoming.length + rest.length < total := by
        rw [hstep]
        simp only
        omega
      have hmoved : after.stepForward.automaton.Progresses := by
        rw [hstep]
        exact hautomaton.symm ▸ hprogresses
      have htext' : after.stepForward.input = rest.map CharEvent.char := by
        rw [hstep]
        exact htext
      obtain ⟨n, hn, hiterates⟩ := ih _ hfewer hmoved htext' rfl
      exact ⟨n + 1, by omega, Iterates.item hends hnext hiterates⟩

/-! ## Tokens without characters -/

/-- Looking ahead never ends when it is where it was. -/
theorem not_ends_of_drops (hdrops : t.Drops t) : ¬t.Ends := by
  intro hends
  induction hends with
  | intro t _ ih => exact ih t hdrops hdrops

/-- Looking ahead drops a token without characters for ever. -/
theorem not_ends (hupcoming : t.upcoming = []) (hinput : t.input = s.map CharEvent.char)
    (hs : s ≠ []) (htakes : t.automaton.Takes s ⟨id, 0⟩) (hskip : t.skipId = some id) :
    ¬t.Ends := by
  obtain ⟨best, hscan, hbest⟩ := htakes
  have hdrops : t.Drops t := by
    refine ⟨hupcoming, ?_, best, hinput ▸ hscan, ?_, ?_⟩
    · rw [hinput]
      simpa using hs
    · rw [hbest, hskip]
    · rw [hbest]
      rfl
  exact not_ends_of_drops hdrops

/-- Where a token without characters is taken, a walk never ends. -/
theorem not_iterates (hupcoming : t.upcoming = []) (hinput : t.input = s.map CharEvent.char)
    (hs : s ≠ []) (htakes : t.automaton.Takes s ⟨id, 0⟩) (n : Nat) : ¬t.Iterates n := by
  intro hiterates
  by_cases hskip : t.skipId = some id
  · have hnot := not_ends hupcoming hinput hs htakes hskip
    cases hiterates with
    | done hends _ => exact hnot hends
    | item hends _ _ => exact hnot hends
  · -- The token is read, and the same text is in front of the tokenizer again.
    induction hiterates with
    | done hends hnext =>
      have hlook := lookAhead_taken hupcoming hinput hs htakes hskip false
      obtain ⟨item, hitem⟩ := exists_next_of_token hlook (List.cons_ne_nil _ _)
      rw [hnext] at hitem
      cases hitem
    | item hends hnext hrest ih =>
      have hlook := lookAhead_taken hupcoming hinput hs htakes hskip false
      obtain ⟨item, hitem⟩ := exists_next_of_token hlook (List.cons_ne_nil _ _)
      rw [hnext] at hitem
      cases hitem
      exact ih rfl hinput htakes hskip

end Tokenizer

namespace Automaton

variable {a : Automaton}

/-- What an automaton takes has characters if its start recognizes nothing or every character is
a token.  Then looking ahead ends in every text, whatever is dropped, and a walk over the tokens
has no more items than there are characters.  Otherwise there is a character before which no
walk ends, and looking ahead does not even end if the token of the start is dropped. -/
theorem progresses_or_stuck (a : Automaton) :
    (a.Progresses ↔ a.accepting a.start = none ∨ ∀ c, (a.recognized? [c]).isSome = true) ∧
      (a.Progresses → ∀ (t : Tokenizer) (s : List Char), t.automaton = a →
        t.input = s.map CharEvent.char →
          t.Ends ∧ ∃ n, n ≤ t.upcoming.length + s.length ∧ t.Iterates n) ∧
        (¬a.Progresses → ∃ c, ∀ t : Tokenizer, t.automaton = a → t.upcoming = [] →
          t.input = [.char c] →
            (t.skipId = a.accepting a.start → ¬t.Ends) ∧ ∀ n, ¬t.Iterates n) := by
  refine ⟨progresses_iff, ?_, ?_⟩
  · rintro hprogresses t s rfl hinput
    exact ⟨Tokenizer.ends_of_progresses hprogresses hinput,
      Tokenizer.exists_iterates hprogresses hinput⟩
  · intro hstuck
    rw [progresses_iff, not_or, not_forall] at hstuck
    obtain ⟨hstart, c, hc⟩ := hstuck
    obtain ⟨id, hid⟩ := Option.ne_none_iff_exists'.mp hstart
    refine ⟨c, ?_⟩
    rintro t rfl hupcoming hinput
    have htakes : t.automaton.Takes [c] ⟨id, 0⟩ := by
      refine takes_nothing_iff.mpr ⟨hid, fun k hpos hle => ?_⟩
      obtain rfl : k = 1 := Nat.le_antisymm hle hpos
      simpa using hc
    have htext : t.input = [c].map CharEvent.char := hinput
    have hs : [c] ≠ [] := List.cons_ne_nil c []
    refine ⟨fun hskip => ?_, Tokenizer.not_iterates hupcoming htext hs htakes⟩
    exact Tokenizer.not_ends hupcoming htext hs htakes (hskip.trans hid)

/-- Words with blanks between them are read to their end, in no more steps than characters. -/
theorem progresses_letterWords :
    letterWords.Progresses ∧
      ∃ t, Tokenizer.ofText letterWords ⟨some "WS", 0, true, 4⟩ "ab a?b" = .ok t ∧
        t.Ends ∧ ∃ n, n ≤ 6 ∧ t.Iterates n := by
  have hskip : (some "WS").map letterWords.tokenId? = (some (1 : Int)).map some := by decide +kernel
  obtain ⟨t, ht, hready⟩ := Tokenizer.exists_ready_ofText hskip 0 4 "ab a?b"
  obtain ⟨hiff, hends, -⟩ := progresses_or_stuck letterWords
  have hprogresses : letterWords.Progresses := hiff.mpr (Or.inl rfl)
  obtain ⟨hend, n, hn, hiterates⟩ := hends hprogresses t _ hready.automaton_eq hready.input_eq
  rw [hready.upcoming_eq] at hn
  exact ⟨hprogresses, t, ht, hend, n, hn, hiterates⟩

/-- An automaton whose start recognizes a token. -/
def startToken : Automaton where
  graph := ⟨#[⟨false, [⟨CodeSet.single (Code.marker 0), 1⟩]⟩, State.bare true]⟩
  names := #["A"]
  rows := #[⟨[], 0⟩, Row.empty]
  rows_eq := by decide +kernel

/-- The text of that automaton. -/
def startTokenText : String :=
  "\x7b\"version\":2.0,\"tokens\":[\"A\"],\"states\":[[false,[[[-2,-1],1]]],[true,[]]]\x7d"

theorem ofJson?_startTokenText : ofJson? startTokenText = .ok startToken := by
  have htext : startToken.toJson = startTokenText := by decide +kernel
  have hfits : startToken.IsEncodable := forall_edges_iff.mpr (by decide)
  have hlabelled : startToken.Labelled := forall_edges_iff.mpr (by decide)
  rw [← htext]
  exact ofJson?_toJson_of_labels hfits hlabelled

theorem takes_startToken : startToken.Takes ['a'] ⟨0, 0⟩ := by
  refine takes_nothing_iff.mpr ⟨rfl, fun k hpos hle => ?_⟩
  obtain rfl : k = 1 := Nat.le_antisymm hle hpos
  rfl

/-- It is read from its text, and a tokenizer of it does not get past a letter: not if the token
is dropped, and not if it is kept. -/
theorem not_progresses_startToken :
    ofJson? startTokenText = .ok startToken ∧ ¬startToken.Progresses ∧
      (∃ t, Tokenizer.ofText startToken ⟨some "A", 0, true, 4⟩ "a" = .ok t ∧ ¬t.Ends) ∧
        ∃ t, Tokenizer.ofText startToken ⟨none, 0, true, 4⟩ "a" = .ok t ∧ ∀ n, ¬t.Iterates n := by
  have hs : ['a'] ≠ [] := List.cons_ne_nil 'a' []
  refine ⟨ofJson?_startTokenText, fun hprogresses => ?_, ?_, ?_⟩
  · exact absurd (hprogresses ['a'] _ hs takes_startToken) (Nat.lt_irrefl 0)
  · have hskip : (some "A").map startToken.tokenId? = (some (0 : Int)).map some := by decide +kernel
    obtain ⟨t, ht, hready⟩ := Tokenizer.exists_ready_ofText hskip 0 4 "a"
    have htakes : t.automaton.Takes ['a'] ⟨0, 0⟩ := hready.automaton_eq ▸ takes_startToken
    exact ⟨t, ht, Tokenizer.not_ends hready.upcoming_eq hready.input_eq hs htakes hready.skipId_eq⟩
  · have hkeep : (none : Option String).map startToken.tokenId? = (none : Option Int).map some := rfl
    obtain ⟨t, ht, hready⟩ := Tokenizer.exists_ready_ofText hkeep 0 4 "a"
    have htakes : t.automaton.Takes ['a'] ⟨0, 0⟩ := hready.automaton_eq ▸ takes_startToken
    exact ⟨t, ht, Tokenizer.not_iterates hready.upcoming_eq hready.input_eq hs htakes⟩

end Automaton
end Munch

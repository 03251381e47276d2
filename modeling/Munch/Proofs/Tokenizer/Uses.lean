import Munch.Proofs.Tokenizer.Standing

/-!
# Using a tokenizer

A tokenizer that finds its tokens as they are asked for answers as if they were a list with
a place in it.  It need not keep all of them: what it has given up limits only how far one
can step back.

Main results:

- Theorem {lit}`Tokenizer.Stands.readSequenceIf`: a sequence that is not there moves nothing.
- Theorem {lit}`Use.stands_run`: each use gives the answer of the list and keeps to the place
  in it.
- Theorem {lit}`Tokenizer.uses_follow_tokens`: so do uses of any kind in any order, from the
  start of a text.
-/

namespace Munch

/-! ## Uses and their answers -/

/-- One use of a tokenizer. -/
inductive Use where
  | peek
  | hasNext
  | read
  | readExpect (s : Selector)
  | readIf (s : Selector)
  | readSequence (pattern : List Selector)
  | readSequenceIf (pattern : List Selector)
  | unread (count : Nat)
  | next
deriving DecidableEq, Repr

/-- What a use gives. -/
inductive Answer where
  | flag (there : Bool)
  | token (found : Option Token)
  | tokens (found : Option (List Token))
  | done
  | failed (e : TokenizerError)
deriving DecidableEq, Repr

namespace Answer

/-- The answer of a use that may fail. -/
def ofResult {α : Type} (f : α → Answer) : Except TokenizerError α → Answer
  | .ok x => f x
  | .error e => .failed e

/-- The answer of a use that gives a token. -/
def ofToken : Except TokenizerError Token → Answer := ofResult fun found => token (some found)

end Answer

namespace Use

/-- The answer of a tokenizer and the tokenizer after it. -/
def run (t : Tokenizer) : Use → Answer × Tokenizer
  | peek => (Reading.peek.run.run t).map (Answer.ofResult Answer.token) id
  | hasNext => (Reading.hasNext.run.run t).map (Answer.ofResult Answer.flag) id
  | read => (Reading.read.run.run t).map Answer.ofToken id
  | readExpect s => ((Reading.readExpect s).run.run t).map Answer.ofToken id
  | readIf s => ((Reading.readIf s).run.run t).map (Answer.ofResult Answer.token) id
  | readSequence pattern =>
    ((Reading.readSequence pattern).run.run t).map
      (Answer.ofResult fun found => Answer.tokens (some found)) id
  | readSequenceIf pattern =>
    ((Reading.readSequenceIf pattern).run.run t).map (Answer.ofResult Answer.tokens) id
  | unread count => ((Reading.unread count).run.run t).map (Answer.ofResult fun _ => Answer.done) id
  | next =>
    t.next.map (fun item => item.elim (Answer.token none) Answer.ofToken) id

section Ideal

variable (a : Automaton) (acceptUnknown : Bool) (tokens : List Token)

/-- Reading the token at a place: a token that is read moves the place behind it. -/
def readAt (s : Selector) (place : Nat) : Answer × Nat :=
  let answer := s.answer a acceptUnknown tokens[place]?
  (Answer.ofToken answer, if answer.isOk then place + 1 else place)

/-- Reading tokens one after the other from a place on, up to the first that may not be
read. -/
def sequenceAt : List Selector → Nat → Except TokenizerError (List Token) × Nat
  | [], place => (.ok [], place)
  | s :: rest, place =>
    match s.answer a acceptUnknown tokens[place]? with
    | .error e => (.error e, place)
    | .ok token => (sequenceAt rest (place + 1)).map (Except.map (token :: ·)) id

/-- The tokens from a place on if all are expected. -/
def sequenceIfAt : List Selector → Nat → Except TokenizerError (Option (List Token))
  | [], _ => .ok (some [])
  | s :: rest, place =>
    if tokens[place]?.any (s.matchesToken a) then
      match s.answer a acceptUnknown tokens[place]? with
      | .error e => .error e
      | .ok token => (sequenceIfAt rest (place + 1)).map (Option.map (token :: ·))
    else .ok none

/-- The answer of a list of tokens with a place in it, and the place after it.  One can step
back over the tokens that are kept. -/
def ideal (kept place : Nat) : Use → Answer × Nat
  | peek => (.token tokens[place]?, place)
  | hasNext => (.flag tokens[place]?.isSome, place)
  | read => readAt a acceptUnknown tokens .any place
  | readExpect s => readAt a acceptUnknown tokens s place
  | readIf s =>
    if tokens[place]?.any (s.matchesToken a) then readAt a acceptUnknown tokens s place
    else (.token none, place)
  | readSequence pattern =>
    (sequenceAt a acceptUnknown tokens pattern place).map
      (Answer.ofResult fun found => Answer.tokens (some found)) id
  | readSequenceIf pattern =>
    match sequenceIfAt a acceptUnknown tokens pattern place with
    | .ok (some found) => (.tokens (some found), place + pattern.length)
    | result => (Answer.ofResult Answer.tokens result, place)
  | unread count =>
    if count ≤ kept then (.done, place - count)
    else (.failed (.tokenUnavailable count kept), place)
  | next =>
    match tokens[place]? with
    | none => (.token none, place)
    | some token => (Answer.ofToken (Selector.any.answer a acceptUnknown token), place + 1)

/-- A tokenizer and the place in the list, after a use of both. -/
def follow (before : Tokenizer × Nat) (use : Use) : Tokenizer × Nat :=
  ((use.run before.1).2,
    (use.ideal a acceptUnknown tokens before.1.past.length before.2).2)

end Ideal
end Use

namespace Reading

variable {α : Type} {x : Reading α} {handle : TokenizerError → Reading α} {t after : Tokenizer}

/-- A use that succeeds needs no rescue. -/
theorem run_tryCatch_ok {r : α} (h : x.run.run t = (.ok r, after)) :
    (tryCatch x handle).run.run t = (.ok r, after) := by
  rw [ExceptT.run_tryCatch, StateT.run_bind, h]
  rfl

/-- The rescue of a use that fails goes on where it left the tokenizer. -/
theorem run_tryCatch_error {e : TokenizerError} (h : x.run.run t = (.error e, after)) :
    (tryCatch x handle).run.run t = (handle e).run.run after := by
  rw [ExceptT.run_tryCatch, StateT.run_bind, h]
  rfl

/-- Unreading more tokens than are kept fails. -/
theorem run_unread_of_lt {count : Nat} (h : t.past.length < count) :
    (unread count).run.run t = (.error (.tokenUnavailable count t.past.length), t) := by
  rw [unread, run_get_bind, if_pos h]
  rfl

end Reading

namespace Tokenizer

variable {t after : Tokenizer} {pinned : Bool} {tokens : List Token} {place : Nat} {a : Automaton}
  {acceptUnknown : Bool}

/-! ## One use -/

/-- Where no failures come, looking ahead finds the token at the place. -/
theorem Stands.exists_lookAhead_ok (hstands : t.Stands a acceptUnknown tokens [] place)
    (pinned : Bool) :
    ∃ after, t.lookAhead pinned = (.ok tokens[place]?.isSome, after) ∧
      after.Stands a acceptUnknown tokens [] place ∧
        after.upcoming.head? = tokens[place]? ∧ Kept pinned t after := by
  rcases hstands.exists_lookAhead pinned with hfound | ⟨_, _, _, hmessages, -⟩
  · exact hfound
  · cases hmessages

/-- Where no failures come, reading gives the answer to the token at the place. -/
theorem Stands.exists_readMatching (hstands : t.Stands a acceptUnknown tokens [] place)
    (pinned : Bool) (s : Selector) :
    ∃ after, (Reading.readMatching pinned s).run.run t =
        (s.answer a acceptUnknown tokens[place]?, after) ∧
      ((∃ token, s.answer a acceptUnknown tokens[place]? = .ok token ∧
        after.Stands a acceptUnknown tokens [] (place + 1) ∧
          (pinned = true → after.past = token :: t.past)) ∨
      ∃ e, s.answer a acceptUnknown tokens[place]? = .error e ∧
        after.Stands a acceptUnknown tokens [] place ∧ (pinned = true → after.past = t.past) ∧
          after.upcoming.head? = tokens[place]?) := by
  rcases hstands.readMatching pinned s with hread | ⟨_, _, _, hmessages, -⟩
  · exact hread
  · cases hmessages

/-- Asking whether the token at the place is expected moves nothing. -/
theorem Stands.exists_nextMatches (hstands : t.Stands a acceptUnknown tokens [] place)
    (pinned : Bool) (s : Selector) :
    ∃ after, (Reading.nextMatches pinned s).run.run t =
        (.ok (tokens[place]?.any (s.matchesToken a)), after) ∧
      after.Stands a acceptUnknown tokens [] place ∧ (pinned = true → after.past = t.past) := by
  obtain ⟨after, hlook, hafter, hhead, hkept⟩ := hstands.exists_lookAhead_ok pinned
  have hrun : (Reading.lookAhead pinned).run.run t = (.ok tokens[place]?.isSome, after) := hlook
  refine ⟨after, ?_, hafter, hkept.past_eq⟩
  rw [Reading.nextMatches, Reading.run_bind hrun, Reading.run_get_bind, hhead, hafter.automaton_eq]
  rfl

/-- Reading with a selector gives the answer of the list and keeps to its place. -/
theorem Stands.readAt (hstands : t.Stands a acceptUnknown tokens [] place) (s : Selector) :
    ∃ after, (Reading.readMatching false s).run.run t =
        (s.answer a acceptUnknown tokens[place]?, after) ∧
      after.Stands a acceptUnknown tokens [] (Use.readAt a acceptUnknown tokens s place).2 := by
  obtain ⟨after, hread, ⟨token, hanswer, hafter, -⟩ | ⟨e, hanswer, hafter, -, -⟩⟩ :=
    hstands.exists_readMatching false s
  · refine ⟨after, hread, ?_⟩
    rwa [Use.readAt, hanswer]
  · refine ⟨after, hread, ?_⟩
    rwa [Use.readAt, hanswer]

/-- A sequence is read up to the first token that may not be. -/
theorem Stands.readSequence (pattern : List Selector) :
    ∀ {t place}, Stands t a acceptUnknown tokens [] place →
      ∃ after, (Reading.readSequence pattern).run.run t =
          ((Use.sequenceAt a acceptUnknown tokens pattern place).1, after) ∧
        after.Stands a acceptUnknown tokens []
          (Use.sequenceAt a acceptUnknown tokens pattern place).2 := by
  induction pattern with
  | nil => exact fun {t place} hstands => ⟨t, rfl, hstands⟩
  | cons s rest ih =>
    intro t place hstands
    rw [Reading.readSequence, List.mapM_cons, Use.sequenceAt]
    obtain ⟨after, hread, ⟨token, hanswer, hafter, -⟩ | ⟨e, hanswer, hafter, -, -⟩⟩ :=
      hstands.exists_readMatching false s
    · rw [hanswer] at hread ⊢
      obtain ⟨last, hrest, hlast⟩ := ih hafter
      refine ⟨last, ?_, hlast⟩
      rw [Reading.run_bind hread]
      change (Reading.readSequence rest >>= _).run.run after = _
      cases hresult : (Use.sequenceAt a acceptUnknown tokens rest (place + 1)).1 with
      | ok found =>
        rw [hresult] at hrest
        rw [Reading.run_bind hrest, Prod.map_fst, hresult]
        rfl
      | error e =>
        rw [hresult] at hrest
        rw [Reading.run_bind_error hrest, Prod.map_fst, hresult]
        rfl
    · rw [hanswer] at hread ⊢
      exact ⟨after, Reading.run_bind_error hread, hafter⟩

/-- Where a tokenizer stands after it was asked for a sequence: behind the sequence if it was
there, and otherwise where it stood. -/
def SettlesAfter (t : Tokenizer) (a : Automaton) (acceptUnknown : Bool) (tokens : List Token)
    (place length : Nat) (after : Tokenizer) : Except TokenizerError (Option (List Token)) → Prop
  | .ok (some _) => after.Stands a acceptUnknown tokens [] (place + length)
  | _ => after.Stands a acceptUnknown tokens [] place ∧ after.past = t.past

/-- The tokens of a sequence that is there are read, and one that is not there, or cannot be
read, leaves the tokenizer where it stood. -/
theorem Stands.readSequenceIf (pattern : List Selector) :
    ∀ {t place}, Stands t a acceptUnknown tokens [] place →
      ∃ after, (Reading.readSequenceIf pattern).run.run t =
          (Use.sequenceIfAt a acceptUnknown tokens pattern place, after) ∧
        t.SettlesAfter a acceptUnknown tokens place pattern.length after
          (Use.sequenceIfAt a acceptUnknown tokens pattern place) := by
  induction pattern with
  | nil => exact fun {t place} hstands => ⟨t, rfl, hstands⟩
  | cons s rest ih =>
    intro t place hstands
    obtain ⟨looked, hmatches, hlooked, hlookedPast⟩ := hstands.exists_nextMatches true s
    rw [Reading.readSequenceIf, Reading.run_bind hmatches, Use.sequenceIfAt]
    cases tokens[place]?.any (s.matchesToken a) with
    | false => exact ⟨looked, rfl, hlooked, hlookedPast rfl⟩
    | true =>
      simp only [↓reduceIte]
      obtain ⟨after, hread, ⟨token, hanswer, hafter, hpast⟩ | ⟨e, hanswer, hafter, hpast, -⟩⟩ :=
        hlooked.exists_readMatching true s
      · rw [hanswer] at hread ⊢
        have hkept : after.past = token :: t.past := by rw [hpast rfl, hlookedPast rfl]
        obtain ⟨last, hrest, hsettles⟩ := ih hafter
        rw [Reading.run_bind hread]
        -- Stepping back over the first token undoes its reading.
        have hback : last.Stands a acceptUnknown tokens [] (place + 1) ∧ last.past = after.past →
            (last.stepBack 1).Stands a acceptUnknown tokens [] place ∧
              (last.stepBack 1).past = t.past := by
          rintro ⟨hlast, hsame⟩
          rw [hkept] at hsame
          exact ⟨hlast.stepBack (by simp [hsame]), by simp [Tokenizer.stepBack, hsame]⟩
        generalize Use.sequenceIfAt a acceptUnknown tokens rest (place + 1) = result at *
        rcases result with e | (_ | found)
        · refine ⟨last.stepBack 1, ?_, hback hsettles⟩
          exact Reading.run_bind_error (Reading.run_tryCatch_error hrest)
        · refine ⟨last.stepBack 1, ?_, hback hsettles⟩
          rw [Reading.run_bind (Reading.run_tryCatch_ok hrest)]
          rfl
        · have hlast : last.Stands a acceptUnknown tokens [] (place + 1 + rest.length) := hsettles
          rw [Nat.add_right_comm] at hlast
          refine ⟨last, ?_, hlast⟩
          rw [Reading.run_bind (Reading.run_tryCatch_ok hrest)]
          rfl
      · rw [hanswer] at hread ⊢
        exact ⟨after, Reading.run_bind_error hread, hafter, by rw [hpast rfl, hlookedPast rfl]⟩

/-- Reading a token that is expected, or none, gives the answer of the list and keeps to its
place. -/
theorem Stands.readIf (hstands : t.Stands a acceptUnknown tokens [] place) (s : Selector) :
    Answer.ofResult Answer.token ((Reading.readIf s).run.run t).1 =
        (Use.ideal a acceptUnknown tokens t.past.length place (.readIf s)).1 ∧
      ((Reading.readIf s).run.run t).2.Stands a acceptUnknown tokens []
        (Use.ideal a acceptUnknown tokens t.past.length place (.readIf s)).2 := by
  obtain ⟨looked, hmatches, hlooked, -⟩ := hstands.exists_nextMatches false s
  rw [Reading.readIf, Reading.run_bind hmatches, Use.ideal]
  cases tokens[place]?.any (s.matchesToken a) with
  | false => exact ⟨rfl, hlooked⟩
  | true =>
    obtain ⟨after, hread, hafter⟩ := hlooked.readAt s
    simp only [↓reduceIte, Use.readAt] at hafter ⊢
    cases hanswer : s.answer a acceptUnknown tokens[place]? with
    | ok token =>
      rw [hanswer] at hread hafter
      rw [Reading.run_bind hread]
      exact ⟨rfl, hafter⟩
    | error e =>
      rw [hanswer] at hread hafter
      rw [Reading.run_bind_error hread]
      exact ⟨rfl, hafter⟩

/-- The next item of a walk is the token at the place, and the walk passes over it also when it
may not be read. -/
theorem Stands.next (hstands : t.Stands a acceptUnknown tokens [] place) :
    (t.next.1.elim (Answer.token none) Answer.ofToken) =
        (Use.ideal a acceptUnknown tokens t.past.length place .next).1 ∧
      t.next.2.Stands a acceptUnknown tokens []
        (Use.ideal a acceptUnknown tokens t.past.length place .next).2 := by
  obtain ⟨looked, hlook, hlooked, hhead, -⟩ := hstands.exists_lookAhead_ok false
  unfold Tokenizer.next
  rw [hlook, Use.ideal]
  cases htoken : tokens[place]? with
  | none => exact ⟨rfl, hlooked⟩
  | some token =>
    obtain ⟨after, hread, ⟨found, hanswer, hafter, -⟩ | ⟨e, hanswer, hafter, -, hahead⟩⟩ :=
      hlooked.exists_readMatching false .any
    · rw [htoken] at hread hanswer
      rw [hanswer] at hread
      simp only [Option.isSome_some, Reading.read, hread, hanswer]
      exact ⟨rfl, hafter⟩
    · rw [htoken] at hread hanswer hahead
      obtain rfl := Selector.answer_any_eq_error hanswer
      rw [hanswer] at hread
      simp only [Option.isSome_some, Reading.read, hread, hanswer]
      exact ⟨rfl, (hafter.stepForward hahead).1⟩

end Tokenizer

namespace Use

variable {t : Tokenizer} {tokens : List Token} {place : Nat} {a : Automaton} {acceptUnknown : Bool}

/-- Each use gives the answer of the list and keeps to the place in it. -/
theorem stands_run (hstands : t.Stands a acceptUnknown tokens [] place) (use : Use) :
    (use.run t).1 = (use.ideal a acceptUnknown tokens t.past.length place).1 ∧
      (use.run t).2.Stands a acceptUnknown tokens []
        (use.ideal a acceptUnknown tokens t.past.length place).2 := by
  cases use with
  | peek =>
    obtain ⟨after, hlook, hafter, hhead, -⟩ := hstands.exists_lookAhead_ok false
    have hrun : (Reading.lookAhead false).run.run t = (.ok tokens[place]?.isSome, after) := hlook
    have hpeek : Reading.peek.run.run t = (.ok tokens[place]?, after) := by
      rw [Reading.peek, Reading.run_bind hrun, Reading.run_get_bind, hhead]
      rfl
    rw [run, hpeek]
    exact ⟨rfl, hafter⟩
  | hasNext =>
    obtain ⟨after, hlook, hafter, -, -⟩ := hstands.exists_lookAhead_ok false
    have hrun : Reading.hasNext.run.run t = (.ok tokens[place]?.isSome, after) := hlook
    rw [run, hrun]
    exact ⟨rfl, hafter⟩
  | read =>
    obtain ⟨after, hread, hafter⟩ := hstands.readAt .any
    rw [run, Reading.read, hread]
    exact ⟨rfl, hafter⟩
  | readExpect s =>
    obtain ⟨after, hread, hafter⟩ := hstands.readAt s
    rw [run, Reading.readExpect, hread]
    exact ⟨rfl, hafter⟩
  | readIf s => exact hstands.readIf s
  | readSequence pattern =>
    obtain ⟨after, hread, hafter⟩ := Tokenizer.Stands.readSequence pattern hstands
    rw [run, hread]
    exact ⟨rfl, hafter⟩
  | readSequenceIf pattern =>
    obtain ⟨after, hread, hsettles⟩ := Tokenizer.Stands.readSequenceIf pattern hstands
    rw [run, hread, ideal]
    generalize sequenceIfAt a acceptUnknown tokens pattern place = result at hsettles ⊢
    rcases result with e | (_ | found)
    · exact ⟨rfl, hsettles.1⟩
    · exact ⟨rfl, hsettles.1⟩
    · exact ⟨rfl, hsettles⟩
  | unread count =>
    by_cases hcount : count ≤ t.past.length
    · rw [run, Reading.run_unread count t hcount, ideal, if_pos hcount]
      exact ⟨rfl, hstands.stepBack hcount⟩
    · rw [run, Reading.run_unread_of_lt (Nat.lt_of_not_le hcount), ideal, if_neg hcount]
      exact ⟨rfl, hstands⟩
  | next => exact hstands.next

/-- Uses in any order keep to the place in the list. -/
theorem stands_follow (uses : List Use) :
    ∀ {before : Tokenizer × Nat}, before.1.Stands a acceptUnknown tokens [] before.2 →
      (uses.foldl (follow a acceptUnknown tokens) before).1.Stands a acceptUnknown tokens []
        (uses.foldl (follow a acceptUnknown tokens) before).2 := by
  induction uses with
  | nil => exact fun hstands => hstands
  | cons use uses ih => exact fun hstands => ih (stands_run hstands use).2

end Use

namespace Tokenizer

/-- The tokens of a text are fixed, and whatever uses are made of a tokenizer for the text, in
whatever order, it stands at a place among them: the tokens that it knows are a block of them
around the place, and each use gives the answer that the whole list would give there. -/
theorem uses_follow_tokens {a : Automaton} (hstart : a.accepting a.start = none)
    {config : TokenizerConfig} {text : String} {t : Tokenizer}
    (hcreate : ofText a config text = .ok t) (uses : List Use) :
    let tokens := a.stream (config.skip.bind a.tokenId?) Position.first text.toList
    let after := uses.foldl (Use.follow a config.acceptUnknown tokens) (t, 0)
    (∃ lo, lo + after.1.past.length = after.2 ∧ after.2 ≤ tokens.length ∧
      after.1.tokens <+: tokens.drop lo) ∧
    ∀ use : Use, (use.run after.1).1 =
      (use.ideal a config.acceptUnknown tokens after.1.past.length after.2).1 := by
  intro tokens after
  have hstands : after.1.Stands a config.acceptUnknown tokens [] after.2 :=
    Use.stands_follow uses (stands_of_ofText hstart hcreate)
  exact ⟨hstands.exists_block, fun use => (Use.stands_run hstands use).1⟩

/-- A tokenizer in front of words and a character that is in none, which keeps no tokens. -/
def letterWordsTokenizer : Tokenizer where
  automaton := Automaton.letterWords
  history := 0
  acceptUnknown := false
  skipId := some 1
  input := "ab a?b".toList.map CharEvent.char
  position := Position.first
  past := []
  upcoming := []

/-- The sequence is not there, so it is given back, and the character is passed over. -/
theorem uses_follow_letterWords :
    Automaton.letterWords.accepting Automaton.letterWords.start = none ∧
      ofText Automaton.letterWords ⟨some "WS", 0, false, 4⟩ "ab a?b" = .ok letterWordsTokenizer ∧
        ∃ after, after = ([.peek, .read, .read, .unread 1, .readSequenceIf [.any, .any], .next,
            .next] : List Use).foldl
              (Use.follow Automaton.letterWords false
                (Automaton.letterWords.stream (some 1) Position.first "ab a?b".toList))
              (letterWordsTokenizer, 0) ∧
          after.2 = 3 ∧ (∃ lo, lo + after.1.past.length = 3) ∧
            (Use.read.run after.1).1 = .token (some ⟨0, "b", ⟨1, 6⟩⟩) := by
  have hstart : Automaton.letterWords.accepting Automaton.letterWords.start = none := rfl
  have hcreate : ofText Automaton.letterWords ⟨some "WS", 0, false, 4⟩ "ab a?b" =
      .ok letterWordsTokenizer := by
    with_unfolding_all rfl
  have hfollow := uses_follow_tokens hstart hcreate
    [.peek, .read, .read, .unread 1, .readSequenceIf [.any, .any], .next, .next]
  refine ⟨hstart, hcreate, _, rfl, ?_⟩
  have hskip : (some "WS").bind Automaton.letterWords.tokenId? = some 1 := by decide +kernel
  simp only [hskip] at hfollow
  obtain ⟨⟨lo, hlo, -, -⟩, hanswers⟩ := hfollow
  have hread := hanswers .read
  generalize hafter : List.foldl _ _ _ = after at hlo hread ⊢
  have hplace : after.2 = 3 := by
    rw [← hafter]
    decide +kernel
  rw [hplace] at hlo hread
  refine ⟨hplace, ⟨lo, hlo⟩, hread.trans ?_⟩
  with_unfolding_all rfl

end Tokenizer
end Munch

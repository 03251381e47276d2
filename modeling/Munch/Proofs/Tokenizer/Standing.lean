import Munch.Proofs.Tokenizer.Iteration
import Munch.Proofs.Tokenizer.Looking

/-!
# Where a tokenizer stands

The tokens of a text are fixed before the first of them is read.  At any time a tokenizer
stands at some place among them: behind it are the tokens that it has given up and those
that it keeps, before it those that it knows already and those of the text that is still to
arrive.  Looking ahead moves tokens from the text to those that are known, and a failure of
the source takes nothing away.

Main results:

- Theorem {lit}`Tokenizer.Awaits.looksAhead`: looking ahead keeps the tokens to come.
- Theorem {lit}`Tokenizer.Stands.exists_block`: the known tokens are a block of the tokens.
- Theorems {lit}`Tokenizer.Stands.stepForward` and {lit}`Tokenizer.Stands.stepBack`: how a
  tokenizer moves.
- Theorem {lit}`Tokenizer.Stands.readMatching`: a token that is read is the one at the place
  where the tokenizer stands.
-/

namespace Munch

/-- A use that fails stops where it left the tokenizer. -/
theorem Reading.run_bind_error {α β : Type} {x : Reading α} {f : α → Reading β}
    {t after : Tokenizer} {e : TokenizerError} (h : x.run.run t = (.error e, after)) :
    (x >>= f).run.run t = (.error e, after) := by
  rw [ExceptT.run_bind, StateT.run_bind, h]
  rfl

theorem Reading.run_get_bind {β : Type} {f : Tokenizer → Reading β} {t : Tokenizer} :
    (get >>= f).run.run t = (f t).run.run t :=
  run_bind rfl

namespace Tokenizer

variable {t after : Tokenizer} {pinned : Bool} {coming tokens : List Token}
  {messages : List String} {place : Nat}

/-- Looking ahead keeps how a tokenizer reads, and gives up no tokens but the oldest of
those that were read, and none while they are pinned. -/
structure Kept (pinned : Bool) (t after : Tokenizer) : Prop where
  automaton_eq : after.automaton = t.automaton
  acceptUnknown_eq : after.acceptUnknown = t.acceptUnknown
  past_prefix : after.past <+: t.past
  past_eq : pinned = true → after.past = t.past

/-- The tokens that come next: those that are known and those of the text still to arrive,
with the failures on the way to its end. -/
structure Awaits (t : Tokenizer) (coming : List Token) (messages : List String) : Prop where
  start : t.automaton.accepting t.automaton.start = none
  arriving : ∃ s, CharEvent.Spells t.input s messages ∧
    coming = t.upcoming ++ t.automaton.stream t.skipId t.position s

/-- How looking ahead ends: with the next token known if there is one, or with a failure of
the source, after which the same tokens come. -/
inductive LooksAhead (pinned : Bool) (t : Tokenizer) (coming : List Token)
    (messages : List String) : Except TokenizerError Bool × Tokenizer → Prop where
  | known {after : Tokenizer} (hawaits : after.Awaits coming messages)
      (hhead : after.upcoming.head? = coming.head?) (hkept : Kept pinned t after) :
      LooksAhead pinned t coming messages (.ok (!coming.isEmpty), after)
  | failed {after : Tokenizer} {message : String} {others : List String}
      (hmessages : messages = message :: others) (hawaits : after.Awaits coming others)
      (hkept : Kept pinned t after) :
      LooksAhead pinned t coming messages (.error (.source message), after)

/-- What a tokenizer awaits is what comes next, if nothing in the input is wrong. -/
theorem awaits_iff : t.Awaits coming messages ↔
    t.automaton.accepting t.automaton.start = none ∧ CharEvent.fault? t.input = none ∧
      CharEvent.messages t.input = messages ∧ t.coming = coming := by
  constructor
  · rintro ⟨hstart, s, hspells, rfl⟩
    obtain ⟨rfl, hfault, hmessages⟩ := CharEvent.spells_iff.mp hspells
    refine ⟨hstart, hfault, hmessages, ?_⟩
    rw [Tokenizer.coming, Automaton.arriving_of_fault hfault]
  · rintro ⟨hstart, hfault, hmessages, rfl⟩
    refine ⟨hstart, _, CharEvent.spells_iff.mpr ⟨rfl, hfault, hmessages⟩, ?_⟩
    rw [Tokenizer.coming, Automaton.arriving_of_fault hfault]

theorem Looked.kept (hlooked : Looked pinned t after) : Kept pinned t after := by
  cases hlooked with
  | stayed input position => exact ⟨rfl, rfl, List.prefix_refl _, fun _ => rfl⟩
  | pushed input position token hupcoming =>
    refine ⟨rfl, rfl, ?_, fun hpinned => by subst hpinned; rfl⟩
    simp only [Tokenizer.push]
    split
    · exact List.take_prefix _ _
    · exact List.prefix_refl _

/-- Looking ahead keeps the tokens to come. -/
theorem Awaits.looksAhead (hawaits : t.Awaits coming messages) (pinned : Bool) :
    LooksAhead pinned t coming messages (t.lookAhead pinned) := by
  obtain ⟨hstart, hfault, hmessages, rfl⟩ := awaits_iff.mp hawaits
  have hkept := (looked_lookAhead pinned t).kept
  have hfinds := finds_lookAhead hstart pinned
  generalize t.lookAhead pinned = result at hkept hfinds
  cases hfinds with
  | known hsame hcoming hleft hhead =>
    have hafter := awaits_iff.mpr ⟨hsame.accepting_start hstart, hsame.fault_eq.trans hfault,
      hleft.trans hmessages, hcoming⟩
    exact LooksAhead.known hafter hhead hkept
  | failed hsame hcoming hleft =>
    have hafter := awaits_iff.mpr ⟨hsame.accepting_start hstart, hsame.fault_eq.trans hfault,
      rfl, hcoming⟩
    exact LooksAhead.failed (hmessages.symm.trans hleft) hafter hkept
  | refused _ _ _ _ hrefused =>
    rw [hfault] at hrefused
    cases hrefused

/-! ## The place among the tokens -/

/-- A tokenizer stands at a place among the tokens of its text: in front of the place are
those that it has given up and those that it keeps, the latest of these last, and behind it
are those that come next. -/
structure Stands (t : Tokenizer) (a : Automaton) (acceptUnknown : Bool) (tokens : List Token)
    (messages : List String) (place : Nat) : Prop where
  automaton_eq : t.automaton = a
  acceptUnknown_eq : t.acceptUnknown = acceptUnknown
  around : ∃ before coming, tokens = before ++ (t.past.reverse ++ coming) ∧
    place = before.length + t.past.length ∧ t.Awaits coming messages

variable {a : Automaton} {acceptUnknown : Bool}

/-- What comes next are the tokens from the place on. -/
theorem Stands.awaits (hstands : t.Stands a acceptUnknown tokens messages place) :
    t.Awaits (tokens.drop place) messages := by
  obtain ⟨before, coming, rfl, rfl, hawaits⟩ := hstands.around
  rwa [← List.append_assoc, List.drop_left' (by simp)]

/-- The known tokens are a block of the tokens, and the place is within it or at its end. -/
theorem Stands.exists_block (hstands : t.Stands a acceptUnknown tokens messages place) :
    ∃ lo, lo + t.past.length = place ∧ place ≤ tokens.length ∧ t.tokens <+: tokens.drop lo := by
  obtain ⟨before, coming, rfl, rfl, -, s, -, rfl⟩ := hstands.around
  refine ⟨before.length, rfl, by simp, ?_⟩
  rw [List.drop_left, ← List.append_assoc]
  exact List.prefix_append _ _

/-- Giving up old tokens moves no tokenizer. -/
theorem Stands.of_kept {others : List String}
    (hstands : t.Stands a acceptUnknown tokens messages place) (hkept : Kept pinned t after)
    (hawaits : after.Awaits (tokens.drop place) others) :
    after.Stands a acceptUnknown tokens others place := by
  obtain ⟨before, coming, htokens, hplace, -⟩ := hstands.around
  obtain ⟨given, hgiven⟩ := hkept.past_prefix
  refine ⟨hkept.automaton_eq.trans hstands.automaton_eq,
    hkept.acceptUnknown_eq.trans hstands.acceptUnknown_eq,
    before ++ given.reverse, coming, ?_, ?_, ?_⟩
  · rw [htokens, ← hgiven, List.reverse_append]
    simp only [List.append_assoc]
  · rw [hplace, ← hgiven]
    simp only [List.length_append, List.length_reverse]
    omega
  · rwa [htokens, hplace, ← List.append_assoc, List.drop_left' (by simp)] at hawaits

/-- Reading the token at the place moves the place behind it. -/
theorem Stands.stepForward (hstands : t.Stands a acceptUnknown tokens messages place)
    {token : Token} (hhead : t.upcoming.head? = some token) :
    t.stepForward.Stands a acceptUnknown tokens messages (place + 1) ∧
      t.stepForward.past = token :: t.past := by
  obtain ⟨before, coming, rfl, rfl, hstart, s, hspells, rfl⟩ := hstands.around
  obtain ⟨rest, hupcoming⟩ := List.head?_eq_some_iff.mp hhead
  have hstep : t.stepForward = { t with past := token :: t.past, upcoming := rest } := by
    rw [Tokenizer.stepForward, hupcoming]
  rw [hstep]
  refine ⟨⟨hstands.automaton_eq, hstands.acceptUnknown_eq, before, _, ?_, ?_,
    hstart, s, hspells, rfl⟩, rfl⟩
  · simp [hupcoming]
  · simp only [List.length_cons]
    omega

/-- Stepping back over tokens that are kept moves the place back by as many. -/
theorem Stands.stepBack (hstands : t.Stands a acceptUnknown tokens messages place) {count : Nat}
    (hcount : count ≤ t.past.length) :
    (t.stepBack count).Stands a acceptUnknown tokens messages (place - count) := by
  obtain ⟨before, coming, rfl, rfl, hstart, s, hspells, rfl⟩ := hstands.around
  refine ⟨hstands.automaton_eq, hstands.acceptUnknown_eq, before, _, ?_, ?_,
    hstart, s, hspells, rfl⟩
  · simp only [Tokenizer.stepBack]
    rw [← List.append_assoc _ t.upcoming, List.append_assoc (List.take _ _).reverse,
      ← List.append_assoc (List.drop _ _).reverse, ← List.reverse_append, List.take_append_drop,
      List.append_assoc]
  · rw [length_past_stepBack]
    omega

/-- Looking ahead tells whether there is a token at the place and finds it, or fails with
the source, and moves no tokenizer. -/
theorem Stands.exists_lookAhead (hstands : t.Stands a acceptUnknown tokens messages place)
    (pinned : Bool) :
    (∃ after, t.lookAhead pinned = (.ok tokens[place]?.isSome, after) ∧
      after.Stands a acceptUnknown tokens messages place ∧
        after.upcoming.head? = tokens[place]? ∧ Kept pinned t after) ∨
    ∃ message others after, messages = message :: others ∧
      t.lookAhead pinned = (.error (.source message), after) ∧
        after.Stands a acceptUnknown tokens others place ∧ Kept pinned t after := by
  have hlooks := hstands.awaits.looksAhead pinned
  generalize hresult : t.lookAhead pinned = result at hlooks
  cases hlooks with
  | known hawaits hhead hkept =>
    rw [List.head?_drop] at hhead
    have hthere : (!(tokens.drop place).isEmpty) = tokens[place]?.isSome := by
      rw [← List.head?_drop]
      cases tokens.drop place <;> rfl
    exact Or.inl ⟨_, by rw [hthere], hstands.of_kept hkept hawaits, hhead, hkept⟩
  | failed hmessages hawaits hkept =>
    exact Or.inr ⟨_, _, _, hmessages, rfl, hstands.of_kept hkept hawaits, hkept⟩

end Tokenizer

/-! ## Reading at a place -/

/-- What reading gives where a token comes next, or none. -/
def Selector.answer (s : Selector) (a : Automaton) (acceptUnknown : Bool) :
    Option Token → Except TokenizerError Token
  | none => .error .noMoreTokens
  | some token =>
    if token.isUnknown && !acceptUnknown then .error (.unknownToken token.text token.position)
    else if s.matchesToken a token then .ok token
    else .error (.unexpectedToken s.display (a.nameOf token) token.position)

/-- Only the next token is read. -/
theorem Selector.answer_eq_ok {s : Selector} {a : Automaton} {acceptUnknown : Bool}
    {found : Option Token} {token : Token} (hanswer : s.answer a acceptUnknown found = .ok token) :
    found = some token := by
  cases found with
  | none => cases hanswer
  | some other =>
    simp only [Selector.answer] at hanswer
    split at hanswer
    · cases hanswer
    · split at hanswer
      · cases hanswer
        rfl
      · cases hanswer

/-- Where any token is expected, only one that no definition matches may not be read. -/
theorem Selector.answer_any_eq_error {a : Automaton} {acceptUnknown : Bool} {token : Token}
    {e : TokenizerError} (hanswer : any.answer a acceptUnknown (some token) = .error e) :
    e = .unknownToken token.text token.position := by
  simp only [Selector.answer, matchesToken_any, ↓reduceIte] at hanswer
  split at hanswer
  · cases hanswer
    rfl
  · cases hanswer

namespace Tokenizer

variable {t after : Tokenizer} {pinned : Bool} {tokens : List Token} {messages : List String}
  {place : Nat} {a : Automaton} {acceptUnknown : Bool}

/-- Once the next token is known, or that there is none, reading gives the answer to it,
and moves on if the token was read. -/
theorem run_readMatching (s : Selector) {there : Bool}
    (hlook : t.lookAhead pinned = (.ok there, after)) :
    (Reading.readMatching pinned s).run.run t =
      (s.answer after.automaton after.acceptUnknown after.upcoming.head?,
        if (s.answer after.automaton after.acceptUnknown after.upcoming.head?).isOk then
          after.stepForward else after) := by
  have hrun : (Reading.lookAhead pinned).run.run t = (.ok there, after) := hlook
  rw [Reading.readMatching, Reading.run_bind hrun, Reading.run_get_bind]
  cases hupcoming : after.upcoming with
  | nil => rfl
  | cons token rest =>
    simp only [List.head?_cons, Selector.answer]
    split
    · rfl
    · cases hmatches : s.matchesToken after.automaton token with
      | true => rfl
      | false => rfl

/-- A token that is read is the one at the place, and then the place is behind it; a source
that fails moves nothing. -/
theorem Stands.readMatching (hstands : t.Stands a acceptUnknown tokens messages place)
    (pinned : Bool) (s : Selector) :
    (∃ after, (Reading.readMatching pinned s).run.run t =
        (s.answer a acceptUnknown tokens[place]?, after) ∧
      ((∃ token, s.answer a acceptUnknown tokens[place]? = .ok token ∧
        after.Stands a acceptUnknown tokens messages (place + 1) ∧
          (pinned = true → after.past = token :: t.past)) ∨
      ∃ e, s.answer a acceptUnknown tokens[place]? = .error e ∧
        after.Stands a acceptUnknown tokens messages place ∧ (pinned = true → after.past = t.past) ∧
          after.upcoming.head? = tokens[place]?)) ∨
    ∃ message others after, messages = message :: others ∧
      (Reading.readMatching pinned s).run.run t = (.error (.source message), after) ∧
        after.Stands a acceptUnknown tokens others place := by
  rcases hstands.exists_lookAhead pinned with
    ⟨looked, hlook, hlooked, hhead, hkept⟩ | ⟨message, others, after, rfl, hlook, hafter, -⟩
  · left
    have hread := run_readMatching s hlook
    rw [hlooked.automaton_eq, hlooked.acceptUnknown_eq, hhead] at hread
    cases hanswer : s.answer a acceptUnknown tokens[place]? with
    | ok token =>
      obtain ⟨hafter, hpast⟩ := hlooked.stepForward (hhead.trans (Selector.answer_eq_ok hanswer))
      rw [hanswer] at hread
      refine ⟨_, hread, Or.inl ⟨token, rfl, hafter, fun hpinned => ?_⟩⟩
      exact hpast.trans (by rw [hkept.past_eq hpinned])
    | error e =>
      rw [hanswer] at hread
      exact ⟨_, hread, Or.inr ⟨e, rfl, hlooked, hkept.past_eq, hhead⟩⟩
  · have hrun : (Reading.lookAhead pinned).run.run t = (.error (.source message), after) := hlook
    refine Or.inr ⟨message, others, after, rfl, ?_, hafter⟩
    rw [Reading.readMatching, Reading.run_bind_error hrun]

/-! ## The start of a text -/

/-- A tokenizer starts in front of all tokens of its text. -/
theorem stands_of_create {config : TokenizerConfig} {arrivals : List Arrival} {text : List Char}
    (hstart : a.accepting a.start = none)
    (hspells : CharEvent.Spells (CharEvent.ofSource (max config.chunk 4) arrivals) text messages)
    (hcreate : create a config arrivals = .ok t) :
    t.Stands a config.acceptUnknown
      (a.stream (config.skip.bind a.tokenId?) Position.first text) messages 0 := by
  unfold create at hcreate
  cases hskip : config.skip with
  | none =>
    simp only [hskip, Except.ok.injEq] at hcreate
    subst hcreate
    exact ⟨rfl, rfl, [], _, rfl, rfl, hstart, text, hspells, rfl⟩
  | some name =>
    simp only [hskip] at hcreate
    split at hcreate
    · rename_i id hname
      simp only [Except.ok.injEq] at hcreate
      subst hcreate
      refine ⟨rfl, rfl, [], _, rfl, rfl, hstart, text, hspells, ?_⟩
      rw [Option.bind_some, hname]
      rfl
    · cases hcreate

/-- So does one for a text that is there as a whole, from which no failures come. -/
theorem stands_of_ofText {config : TokenizerConfig} {text : String}
    (hstart : a.accepting a.start = none) (hcreate : ofText a config text = .ok t) :
    t.Stands a config.acceptUnknown
      (a.stream (config.skip.bind a.tokenId?) Position.first text.toList) [] 0 := by
  refine stands_of_create hstart ?_ hcreate
  rw [CharEvent.ofSource_toUTF8]
  exact CharEvent.Spells.of_map _

end Tokenizer
end Munch

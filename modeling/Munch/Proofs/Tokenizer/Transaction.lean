import Munch.Proofs.Tokenizer.Effects

/-!
# Reading all of a sequence or nothing

While a sequence is read no tokens are given up, so that the place can be moved back by as many
tokens as were read.  If the sequence is not there, or cannot be read, nothing but a failure of
the source is lost: one can step back as far as before, and the same tokens come.

Main results:

- Theorem {lit}`PinnedTokenizer.readSequenceIf_eq`: moving back at once over all tokens that were
  read is moving back over each of them.
- Theorem {lit}`Tokenizer.rereads_iff`: what reads give in the end depends only on the tokens that
  come.
- Theorem {lit}`PinnedTokenizer.readSequenceIf_transacts`: a sequence is read as a whole, or the
  tokenizer goes on as if it had not been asked for it.
-/

namespace Munch

/-! ## Moving back at once -/

/-- Moving back twice is moving back over the tokens of both. -/
theorem Tokenizer.stepBack_stepBack (t : Tokenizer) (m n : Nat) :
    (t.stepBack m).stepBack n = t.stepBack (m + n) := by
  simp only [Tokenizer.stepBack, List.drop_drop, List.take_add, List.reverse_append,
    List.append_assoc]

/-- The tokens found so far, in front of those of the rest of the sequence; if it is not there,
the place is moved back over them. -/
def PinnedTokenizer.behind (found : List Token) :
    Except TokenizerError (Option (List Token)) × Tokenizer →
      Except TokenizerError (Option (List Token)) × PinnedTokenizer
  | (.ok (some tokens), t) => (.ok (some (found ++ tokens)), ⟨t, true⟩)
  | (.ok none, t) => (.ok none, ⟨t.stepBack found.length, true⟩)
  | (.error e, t) => (.error e, ⟨t.stepBack found.length, true⟩)

theorem PinnedTokenizer.collect_eq (pattern : List Selector) (found : List Token) (t : Tokenizer) :
    collect found ⟨t, true⟩ pattern =
      behind found ((Reading.readSequenceIf pattern).run.run t) := by
  induction pattern generalizing found t with
  | nil =>
    change _ = behind found (.ok (some []), t)
    rw [collect, behind, List.append_nil]
  | cons s rest ih =>
    rw [collect, Reading.readSequenceIf, use]
    generalize hnext : (Reading.nextMatches true s).run.run t = next
    obtain ⟨e | there, looked⟩ := next
    · rw [Reading.run_bind_error hnext]
      rfl
    rw [Reading.run_bind hnext]
    cases there with
    | false => rfl
    | true =>
      rw [if_pos rfl]
      simp only [Prod.map_apply, id_eq, use]
      generalize hread : (Reading.readMatching true s).run.run looked = taken
      obtain ⟨e | token, known⟩ := taken
      · rw [Reading.run_bind_error hread]
        rfl
      rw [Reading.run_bind hread]
      simp only [Prod.map_apply, id_eq]
      rw [ih]
      generalize hrest : (Reading.readSequenceIf rest).run.run known = others
      have hlength : (found ++ [token]).length = 1 + found.length := by
        rw [List.length_append, List.length_singleton, Nat.add_comm]
      obtain ⟨e | _ | tokens, last⟩ := others
      · rw [Reading.run_bind_error (Reading.run_tryCatch_error hrest), behind, hlength,
          ← Tokenizer.stepBack_stepBack]
        rfl
      · rw [Reading.run_bind (Reading.run_tryCatch_ok hrest), behind, hlength,
          ← Tokenizer.stepBack_stepBack]
        rfl
      · rw [Reading.run_bind (Reading.run_tryCatch_ok hrest), behind, List.append_assoc]
        rfl

namespace Tokenizer

variable {t u after : Tokenizer} {token : Token}

/-! ## Where the same tokens come -/

theorem coming_stepForward (hhead : t.upcoming.head? = some token) :
    t.coming = token :: t.stepForward.coming := by
  obtain ⟨rest, hupcoming⟩ := List.head?_eq_some_iff.mp hhead
  rw [stepForward_eq hhead, coming, coming, hupcoming]
  rfl

theorem coming_stepBack (t : Tokenizer) (count : Nat) :
    (t.stepBack count).coming = (t.past.take count).reverse ++ t.coming :=
  List.append_assoc _ _ _

theorem sameSource_stepForward (t : Tokenizer) : SameSource t t.stepForward := by
  rw [stepForward]
  split <;> exact ⟨rfl, rfl, rfl, rfl⟩

/-- The tokens that are kept and those that come are the same. -/
structure SameStream (t after : Tokenizer) : Prop where
  same : SameSource t after
  stream_eq : after.past.reverse ++ after.coming = t.past.reverse ++ t.coming

/-- While tokens are pinned, those that are kept and those that come stay the same. -/
theorem invariant_sameStream (hstart : t.automaton.accepting t.automaton.start = none) :
    Invariant true (SameStream t) where
  lookAhead := by
    intro u hu
    have hpast := (looked_lookAhead true u).past_eq
    have hfinds := finds_lookAhead (hu.same.accepting_start hstart) true
    generalize u.lookAhead true = result at hpast hfinds
    cases hfinds with
    | known hsame hcoming | failed hsame hcoming | refused hsame hcoming =>
      refine ⟨hu.same.trans hsame, ?_⟩
      rw [hpast, hcoming, hu.stream_eq]
  stepForward := by
    intro u hu
    refine ⟨hu.same.trans (sameSource_stepForward u), ?_⟩
    rw [← hu.stream_eq]
    cases hhead : u.upcoming.head? with
    | none =>
      rw [List.head?_eq_none_iff] at hhead
      rw [stepForward, hhead]
    | some token =>
      rw [coming_stepForward hhead, stepForward_eq hhead, List.reverse_cons, List.append_assoc]
      rfl
  stepBack := by
    intro u count hu
    refine ⟨hu.same.trans ⟨rfl, rfl, rfl, rfl⟩, ?_⟩
    rw [← hu.stream_eq, coming_stepBack, ← List.append_assoc]
    change (u.past.drop count).reverse ++ _ ++ _ = _
    rw [← List.reverse_append, List.take_append_drop]

/-- The same tokens can be unread, and the same tokens come. -/
structure Alike (t after : Tokenizer) : Prop where
  same : SameSource t after
  past_eq : after.past = t.past
  coming_eq : after.coming = t.coming

/-- Where the place is the same, the same tokens come. -/
theorem SameStream.alike (hstream : SameStream t after) (hpast : after.past = t.past) :
    Alike t after where
  same := hstream.same
  past_eq := hpast
  coming_eq := by
    have hwhole := hstream.stream_eq
    rw [hpast] at hwhole
    exact List.append_cancel_left hwhole

/-- Unreading gives the same answer, and then again the same tokens come. -/
theorem Alike.unread (halike : Alike t after) (count : Nat) :
    ((Reading.unread count).run.run after).1 = ((Reading.unread count).run.run t).1 ∧
      Alike ((Reading.unread count).run.run t).2 ((Reading.unread count).run.run after).2 := by
  have hpast := halike.past_eq
  by_cases hcount : count ≤ t.past.length
  · rw [Reading.run_unread count t hcount, Reading.run_unread count after (hpast ▸ hcount)]
    obtain ⟨hautomaton, haccept, hskip, hfault⟩ := halike.same
    refine ⟨rfl, ⟨hautomaton, haccept, hskip, hfault⟩, congrArg (List.drop count) hpast, ?_⟩
    rw [coming_stepBack, coming_stepBack, hpast, halike.coming_eq]
  · rw [Reading.run_unread_of_lt (Nat.lt_of_not_le hcount),
      Reading.run_unread_of_lt (Nat.lt_of_not_le (hpast ▸ hcount)), hpast]
    exact ⟨rfl, halike⟩

/-! ## Reads that are tried again -/

/-- One read for each selector, tried again after each failure of the source, gives some
answers. -/
inductive Rereads : Tokenizer → List Selector → List (Except TokenizerError Token) → Prop where
  | done (t : Tokenizer) : Rereads t [] []
  | again {t after : Tokenizer} {s : Selector} {rest : List Selector} {message : String}
      {answers : List (Except TokenizerError Token)}
      (hread : (Reading.readMatching false s).run.run t = (.error (.source message), after))
      (hrest : Rereads after (s :: rest) answers) : Rereads t (s :: rest) answers
  | answer {t after : Tokenizer} {s : Selector} {rest : List Selector}
      {answer : Except TokenizerError Token} {answers : List (Except TokenizerError Token)}
      (hread : (Reading.readMatching false s).run.run t = (answer, after))
      (hanswer : ∀ message, answer ≠ .error (.source message))
      (hrest : Rereads after rest answers) : Rereads t (s :: rest) (answer :: answers)

/-- A failure of the source is not an answer. -/
theorem rereads_of_failure {s : Selector} {rest : List Selector} {message : String}
    (hread : (Reading.readMatching false s).run.run t = (.error (.source message), after))
    (answers : List (Except TokenizerError Token)) :
    t.Rereads (s :: rest) answers ↔ after.Rereads (s :: rest) answers := by
  refine ⟨fun hrereads => ?_, Rereads.again hread⟩
  cases hrereads with
  | again hread' hrest =>
    rw [hread] at hread'
    cases hread'
    exact hrest
  | answer hread' hanswer _ =>
    rw [hread] at hread'
    cases hread'
    exact absurd rfl (hanswer message)

/-- Anything else is, and then the next selector is read. -/
theorem rereads_of_answer {s : Selector} {rest : List Selector}
    {answer : Except TokenizerError Token}
    (hread : (Reading.readMatching false s).run.run t = (answer, after))
    (hanswer : ∀ message, answer ≠ .error (.source message))
    (answers : List (Except TokenizerError Token)) :
    t.Rereads (s :: rest) answers ↔
      ∃ others, answers = answer :: others ∧ after.Rereads rest others := by
  constructor
  · intro hrereads
    cases hrereads with
    | again hread' _ =>
      rw [hread] at hread'
      cases hread'
      exact absurd rfl (hanswer _)
    | answer hread' _ hrest =>
      rw [hread] at hread'
      cases hread'
      exact ⟨_, rfl, hrest⟩
  · rintro ⟨others, rfl, hrest⟩
    exact Rereads.answer hread hanswer hrest

end Tokenizer

section Replies

variable (a : Automaton) (acceptUnknown : Bool) (fault? : Option Nat)

/-- What a read gives where some tokens come, and behind them the end or a place from which the
input is not UTF-8. -/
def Selector.reply (s : Selector) (coming : List Token) : Except TokenizerError Token :=
  match coming, fault? with
  | [], some offset => .error (.invalidUtf8 offset)
  | coming, _ => s.answer a acceptUnknown coming.head?

/-- What reads give one after the other. -/
def Selector.replies (coming : List Token) : List Selector → List (Except TokenizerError Token)
  | [] => []
  | s :: rest =>
    s.reply a acceptUnknown fault? coming ::
      replies (if (s.reply a acceptUnknown fault? coming).isOk then coming.tail else coming) rest

end Replies

/-- If the tokens end where the input ends, only the next token decides. -/
theorem Selector.reply_eq_answer {s : Selector} {a : Automaton} {acceptUnknown : Bool}
    {fault? : Option Nat} {coming : List Token} (hend : coming = [] → fault? = none) :
    s.reply a acceptUnknown fault? coming = s.answer a acceptUnknown coming.head? := by
  cases coming with
  | nil => rw [hend rfl, reply]; exact fun _ _ h => nomatch h
  | cons token coming => rw [reply]; exact fun _ h => nomatch h

/-- No answer is a failure of the source. -/
theorem Selector.reply_ne_source (s : Selector) (a : Automaton) (acceptUnknown : Bool)
    (fault? : Option Nat) (coming : List Token) (message : String) :
    s.reply a acceptUnknown fault? coming ≠ .error (.source message) := by
  unfold Selector.reply
  split
  · simp
  · cases coming.head? with
    | none => simp [Selector.answer]
    | some token =>
      simp only [Selector.answer]
      split
      · simp
      · split <;> simp

namespace Tokenizer

variable {t after : Tokenizer}

/-- What the next read gives in the end. -/
def reply (t : Tokenizer) (s : Selector) : Except TokenizerError Token :=
  s.reply t.automaton t.acceptUnknown (CharEvent.fault? t.input) t.coming

/-- How a read ends: with the answer to the tokens that come, or with a failure of the source after
which the same tokens come. -/
theorem run_readMatching_cases (hstart : t.automaton.accepting t.automaton.start = none)
    (s : Selector) :
    (∃ after, (Reading.readMatching false s).run.run t = (t.reply s, after) ∧ SameSource t after ∧
      after.coming = if (t.reply s).isOk then t.coming.tail else t.coming) ∨
    ∃ message after, (Reading.readMatching false s).run.run t = (.error (.source message), after) ∧
      SameSource t after ∧ after.coming = t.coming ∧
        CharEvent.messages t.input = message :: CharEvent.messages after.input := by
  have hfinds := finds_lookAhead hstart false
  generalize hlook : t.lookAhead false = result at hfinds
  cases hfinds with
  | @known looked hsame hcoming _ hhead hend =>
    left
    have hreply : t.reply s =
        s.answer looked.automaton looked.acceptUnknown looked.upcoming.head? := by
      rw [hsame.automaton_eq, hsame.acceptUnknown_eq, hhead]
      exact Selector.reply_eq_answer hend
    have hread := run_readMatching s hlook
    rw [← hreply] at hread
    refine ⟨_, hread, ?_⟩
    cases hanswer : t.reply s with
    | ok token =>
      have htoken : looked.upcoming.head? = some token :=
        Selector.answer_eq_ok (hreply.symm.trans hanswer)
      refine ⟨hsame.trans (sameSource_stepForward looked), ?_⟩
      rw [← hcoming, coming_stepForward htoken]
      rfl
    | error e => exact ⟨hsame, hcoming⟩
  | failed hsame hcoming hmessages =>
    right
    have hrun : (Reading.lookAhead false).run.run t = (.error (.source _), _) := hlook
    refine ⟨_, _, ?_, hsame, hcoming, hmessages⟩
    rw [Reading.readMatching, Reading.run_bind_error hrun]
  | @refused looked offset hsame hcoming _ hnone hfault =>
    left
    have hrun : (Reading.lookAhead false).run.run t = (.error (.invalidUtf8 offset), looked) :=
      hlook
    have hreply : t.reply s = .error (.invalidUtf8 offset) := by
      rw [reply, hnone, hfault]
      rfl
    refine ⟨looked, ?_, hsame, ?_⟩
    · rw [Reading.readMatching, Reading.run_bind_error hrun, hreply]
    · rw [hreply]
      exact hcoming

/-- What reads give in the end depends only on the tokens that come. -/
theorem rereads_iff (hstart : t.automaton.accepting t.automaton.start = none)
    (selectors : List Selector) (answers : List (Except TokenizerError Token)) :
    t.Rereads selectors answers ↔
      answers =
        Selector.replies t.automaton t.acceptUnknown (CharEvent.fault? t.input) t.coming
          selectors := by
  induction selectors generalizing t answers with
  | nil =>
    refine ⟨fun hrereads => ?_, fun hanswers => hanswers ▸ Rereads.done t⟩
    cases hrereads
    rfl
  | cons s rest ih =>
    -- Each failure takes a message away.
    induction hlength : (CharEvent.messages t.input).length using Nat.strong_induction_on
      generalizing t with
    | _ n ihFailure =>
      rcases run_readMatching_cases hstart s with
        ⟨after, hread, hsame, hcoming⟩ | ⟨message, after, hread, hsame, hcoming, hmessages⟩
      · rw [rereads_of_answer hread (Selector.reply_ne_source _ _ _ _ _), Selector.replies]
        have hothers := ih (hsame.accepting_start hstart)
        rw [hsame.automaton_eq, hsame.acceptUnknown_eq, hsame.fault_eq, hcoming] at hothers
        simp only [hothers]
        exact exists_eq_right
      · rw [rereads_of_failure hread]
        have hagain := ihFailure _ ?_ (hsame.accepting_start hstart) rfl
        · rwa [hsame.automaton_eq, hsame.acceptUnknown_eq, hsame.fault_eq, hcoming] at hagain
        · rw [← hlength, hmessages]
          exact Nat.lt_succ_self _

/-- Where the same tokens come, reads give the same. -/
theorem Alike.rereads_iff (halike : Alike t after)
    (hstart : t.automaton.accepting t.automaton.start = none) (selectors : List Selector) :
    ∃ answers, ∀ found, (t.Rereads selectors found ↔ found = answers) ∧
      (after.Rereads selectors found ↔ found = answers) := by
  refine ⟨_, fun found => ⟨Tokenizer.rereads_iff hstart selectors found, ?_⟩⟩
  rw [Tokenizer.rereads_iff (halike.same.accepting_start hstart), halike.same.automaton_eq,
    halike.same.acceptUnknown_eq, halike.same.fault_eq, halike.coming_eq]

/-! ## Transactions -/

/-- The tokens that come next were read, one for each selector, and the place is behind them. -/
structure TakesNext (t : Tokenizer) (pattern : List Selector) (tokens : List Token)
    (after : Tokenizer) : Prop where
  matched : List.Forall₂ (fun s token => s.matchesToken t.automaton token = true) pattern tokens
  coming_eq : t.coming = tokens ++ after.coming
  past_eq : after.past = tokens.reverse ++ t.past

/-- The place is the same and tokens were added at most: unreading gives the same answer, and then
reads give the same in the end. -/
structure GoesOn (t after : Tokenizer) : Prop where
  past_eq : after.past = t.past
  tokens_prefix : t.tokens <+: after.tokens
  unread_eq : ∀ count, ((Reading.unread count).run.run after).1 =
    ((Reading.unread count).run.run t).1
  rereads_iff : ∀ count selectors, ∃ answers, ∀ found,
    (((Reading.unread count).run.run t).2.Rereads selectors found ↔ found = answers) ∧
      (((Reading.unread count).run.run after).2.Rereads selectors found ↔ found = answers)

theorem Alike.goesOn (halike : Alike t after) (hextends : Extends t after)
    (hstart : t.automaton.accepting t.automaton.start = none) : GoesOn t after where
  past_eq := halike.past_eq
  tokens_prefix := hextends.tokens_prefix
  unread_eq count := (halike.unread count).1
  rereads_iff count selectors := by
    refine (halike.unread count).2.rereads_iff ?_ selectors
    by_cases hcount : count ≤ t.past.length
    · rw [Reading.run_unread count t hcount]
      exact hstart
    · rw [Reading.run_unread_of_lt (Nat.lt_of_not_le hcount)]
      exact hstart

end Tokenizer

/-- A token that is read is expected. -/
theorem Selector.matchesToken_of_answer {s : Selector} {a : Automaton} {acceptUnknown : Bool}
    {found : Option Token} {token : Token} (hanswer : s.answer a acceptUnknown found = .ok token) :
    s.matchesToken a token = true := by
  obtain rfl := Selector.answer_eq_ok hanswer
  simp only [Selector.answer] at hanswer
  split at hanswer
  · cases hanswer
  · split at hanswer
    · assumption
    · cases hanswer

namespace PinnedTokenizer

/-- Moving back at once over all tokens that were read is moving back over each of them. -/
theorem readSequenceIf_eq (p : PinnedTokenizer) (pattern : List Selector) :
    p.readSequenceIf pattern =
      ((Reading.readSequenceIf pattern).run.run p.tokenizer).map id fun t => ⟨t, false⟩ := by
  rw [readSequenceIf, collect_eq]
  generalize (Reading.readSequenceIf pattern).run.run p.tokenizer = result
  obtain ⟨e | _ | tokens, after⟩ := result <;> rfl

/-- Reading a sequence, or nothing, is a transaction, whatever the source does and however many
tokens are to be kept.  If it gives tokens, they are those that came next, each is expected, and
the place is behind them.  If it gives none or fails, the place is where it was, and no token that
was known is lost; so one can step back as far as before, and reads that are tried again after
failures of the source give the same.  In each case the mark is taken away again. -/
theorem readSequenceIf_transacts {t : Tokenizer}
    (hstart : t.automaton.accepting t.automaton.start = none) (pinned : Bool)
    (pattern : List Selector) :
    ∃ result after, readSequenceIf ⟨t, pinned⟩ pattern = (result, ⟨after, false⟩) ∧
      (Reading.readSequenceIf pattern).run.run t = (result, after) ∧
        (∀ tokens, result = .ok (some tokens) → t.TakesNext pattern tokens after) ∧
          ((∀ tokens, result ≠ .ok (some tokens)) → t.GoesOn after) := by
  have hstream := Reading.keeps_readSequenceIf (Tokenizer.invariant_sameStream hstart) pattern t
    ⟨Tokenizer.SameSource.refl t, rfl⟩
  have hextends := Reading.extends_readSequenceIf pattern t
  have htransacts := Reading.transacts_readSequenceIf pattern t
  have heq := readSequenceIf_eq ⟨t, pinned⟩ pattern
  simp only at heq
  generalize (Reading.readSequenceIf pattern).run.run t = run at hstream hextends htransacts heq ⊢
  obtain ⟨result, after⟩ := run
  refine ⟨result, after, heq, rfl, ?_, fun hnone => ?_⟩
  · rintro tokens rfl
    cases htransacts with
    | read hanswers hpast =>
      refine ⟨hanswers.imp fun s token => Selector.matchesToken_of_answer, ?_, hpast⟩
      have hwhole := hstream.stream_eq
      simp only [hpast, List.reverse_append, List.reverse_reverse, List.append_assoc] at hwhole
      exact (List.append_cancel_left hwhole).symm
  · have hpast : after.past = t.past := by
      cases htransacts with
      | read => exact absurd rfl (hnone _)
      | absent hpast | failed hpast => exact hpast
    exact (hstream.alike hpast).goesOn hextends hstart

/-- A tokenizer in front of words, whose source fails within the second of them. -/
def failingTokenizer : Tokenizer :=
  { Tokenizer.letterWordsTokenizer with
    input := "ab a".toList.map CharEvent.char ++
      .failure "lost" :: "b?".toList.map CharEvent.char ++ [.invalid 6] }

/-- The first word is read and given back, and then comes again. -/
theorem readSequenceIf_failing :
    failingTokenizer.automaton.accepting failingTokenizer.automaton.start = none ∧
      ∃ after, readSequenceIf ⟨failingTokenizer, false⟩ [.byName "WORD", .any] =
          (.error (.source "lost"), ⟨after, false⟩) ∧
        after.tokens = [⟨0, "ab", ⟨1, 1⟩⟩] ∧
          after.Rereads [.any, .any, .any] [.ok ⟨0, "ab", ⟨1, 1⟩⟩, .ok ⟨0, "ab", ⟨1, 4⟩⟩,
            .error (.unknownToken "?" ⟨1, 6⟩)] := by
  have hstart : failingTokenizer.automaton.accepting failingTokenizer.automaton.start = none := rfl
  obtain ⟨result, after, hrun, hplain, -, hgoesOn⟩ :=
    readSequenceIf_transacts hstart false [.byName "WORD", .any]
  have hfails : (Reading.readSequenceIf [.byName "WORD", .any]).run.run failingTokenizer =
      (.error (.source "lost"),
        { failingTokenizer with
          input := .char 'a' :: "b?".toList.map CharEvent.char ++ [.invalid 6]
          position := ⟨1, 4⟩
          upcoming := [⟨0, "ab", ⟨1, 1⟩⟩] }) := by
    with_unfolding_all rfl
  have hrereads : (failingTokenizer.stepBack 0).Rereads [.any, .any, .any]
      [.ok ⟨0, "ab", ⟨1, 1⟩⟩, .ok ⟨0, "ab", ⟨1, 4⟩⟩, .error (.unknownToken "?" ⟨1, 6⟩)] :=
    (Tokenizer.rereads_iff hstart _ _).mpr (by decide +kernel)
  rw [hfails] at hplain
  cases hplain
  obtain ⟨answers, hanswers⟩ := (hgoesOn (by simp)).rereads_iff 0 [.any, .any, .any]
  obtain ⟨hbefore, hafter⟩ := hanswers _
  exact ⟨hstart, _, hrun, rfl, hafter.mpr (hbefore.mp hrereads)⟩

end PinnedTokenizer
end Munch

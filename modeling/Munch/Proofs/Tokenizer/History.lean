import Mathlib.Data.List.Basic
import Munch.Proofs.Tokenizer.Effects

/-!
# The history of a tokenizer

Tokens that were read are given up only when there are too many, and then as many are kept as
the tokenizer was told to keep.  So one can step back over the last tokens and read them again,
and what is kept does not grow without a bound.

Main results:

- Theorem {lit}`Tokenizer.Looked.length_tokens_le`: after a token was added there are not too
  many.
- Theorem {lit}`Use.passes_run`: a use that succeeds passes over the tokens that it gives and
  keeps the last ones.
- Theorem {lit}`Use.unread_rereads`: the last tokens can be unread and are read again.
- Theorem {lit}`Tokenizer.history_keeps_and_limits`: so it is after uses of any kind in any
  order, from the start of a text.
-/

namespace Munch
namespace Tokenizer

variable {t middle after : Tokenizer} {pinned : Bool} {found more : List Token} {token : Token}

/-! ## How many tokens are kept -/

/-- Where old tokens are given up, there are not too many behind the one that was added.  The
number of tokens is counted in 64 bits, as the limit is. -/
theorem Looked.length_tokens_le (hlooked : Looked false t after) (hunknown : t.upcoming = [])
    (hknown : after.upcoming ≠ []) (hcounted : t.past.length + 1 < UInt64.size) :
    after.tokens.length ≤ capacity t.history := by
  cases hlooked with
  | stayed input position => exact absurd hunknown hknown
  | pushed input position token hupcoming =>
    simp only [tokens, push, Bool.not_false, Bool.true_and, decide_eq_true_eq, List.length_append,
      List.length_reverse, List.length_singleton]
    simp only [UInt64.size] at hcounted
    split
    · rename_i hfull
      have hkept : (t.past.take t.history).length ≤ t.history := List.length_take_le _ _
      simp only [capacity] at hfull ⊢
      omega
    · omega

/-- A tokenizer has passed over some tokens, which may be read, and keeps the last ones. -/
structure Passes (t : Tokenizer) (found : List Token) (after : Tokenizer) : Prop where
  history_eq : after.history = t.history
  acceptUnknown_eq : after.acceptUnknown = t.acceptUnknown
  readable : ∀ token ∈ found, token.isUnknown = true → t.acceptUnknown = true
  past_prefix : after.past <+: found.reverse ++ t.past
  kept : min t.history (found.length + t.past.length) ≤ after.past.length

namespace Passes

theorem refl (t : Tokenizer) : Passes t [] t where
  history_eq := rfl
  acceptUnknown_eq := rfl
  readable := List.forall_mem_nil _
  past_prefix := List.prefix_refl _
  kept := by simp

theorem trans (hfirst : Passes t found middle) (hsecond : Passes middle more after) :
    Passes t (found ++ more) after where
  history_eq := hsecond.history_eq.trans hfirst.history_eq
  acceptUnknown_eq := hsecond.acceptUnknown_eq.trans hfirst.acceptUnknown_eq
  readable token hmem := by
    rcases List.mem_append.mp hmem with hmem | hmem
    · exact hfirst.readable token hmem
    · exact fun hunknown => hfirst.acceptUnknown_eq ▸ hsecond.readable token hmem hunknown
  past_prefix := by
    rw [List.reverse_append, List.append_assoc]
    exact hsecond.past_prefix.trans ((List.prefix_append_right_inj _).mpr hfirst.past_prefix)
  kept := by
    have hmiddle := hfirst.kept
    have hafter := hsecond.kept
    rw [hfirst.history_eq] at hafter
    rw [List.length_append]
    omega

end Passes

/-- Looking ahead passes over nothing. -/
theorem Looked.passes (hlooked : Looked pinned t after) : Passes t [] after := by
  cases hlooked with
  | stayed input position =>
    exact ⟨rfl, rfl, List.forall_mem_nil _, List.prefix_refl _, by simp⟩
  | pushed input position token hupcoming =>
    refine ⟨rfl, rfl, List.forall_mem_nil _, ?_, ?_⟩
    · simp only [push, List.reverse_nil, List.nil_append]
      split
      · exact List.take_prefix _ _
      · exact List.prefix_refl _
    · simp only [push, List.length_nil]
      split
      · rw [List.length_take]
        omega
      · omega

theorem passes_stepForward (hhead : t.upcoming.head? = some token)
    (hreadable : token.isUnknown = true → t.acceptUnknown = true) :
    Passes t [token] t.stepForward := by
  rw [stepForward_eq hhead]
  refine ⟨rfl, rfl, fun other hmem => ?_, List.prefix_refl _, ?_⟩
  · rwa [List.mem_singleton.mp hmem]
  · simp only [List.length_cons, List.length_nil]
    omega

end Tokenizer

/-- A token that is read may be read. -/
theorem Selector.readable_of_answer {s : Selector} {a : Automaton} {acceptUnknown : Bool}
    {token : Token} (hanswer : s.answer a acceptUnknown (some token) = .ok token)
    (hunknown : token.isUnknown = true) : acceptUnknown = true := by
  cases acceptUnknown with
  | true => rfl
  | false => simp [Selector.answer, hunknown] at hanswer

namespace Reading

variable {t after : Tokenizer} {pinned : Bool} {s : Selector} {token : Token} {tokens : List Token}

/-! ## Readings that succeed -/

theorem passes_readMatching (h : (readMatching pinned s).run.run t = (.ok token, after)) :
    t.Passes [token] after := by
  have hreads := reads_readMatching pinned s t
  rw [h] at hreads
  cases hreads with
  | took hlooked hhead hanswer =>
    have hpassed := Tokenizer.passes_stepForward hhead (Selector.readable_of_answer hanswer)
    exact hlooked.passes.trans hpassed

theorem passes_readIf {found : Option Token} (h : (readIf s).run.run t = (.ok found, after)) :
    t.Passes found.toList after := by
  have hlooked := looked_nextMatches false s t
  rw [readIf] at h
  generalize hnext : (nextMatches false s).run.run t = next at hlooked
  obtain ⟨e | there, looked⟩ := next
  · rw [run_bind_error hnext] at h
    cases h
  rw [run_bind hnext] at h
  cases there with
  | false =>
    cases h
    exact hlooked.passes
  | true =>
    rw [if_pos rfl] at h
    generalize hread : (readMatching false s).run.run looked = taken at h
    obtain ⟨e | token, last⟩ := taken
    · rw [run_bind_error hread] at h
      cases h
    · rw [run_bind hread] at h
      cases h
      exact hlooked.passes.trans (passes_readMatching hread)

theorem passes_readSequence {pattern : List Selector}
    (h : (readSequence pattern).run.run t = (.ok tokens, after)) : t.Passes tokens after := by
  induction pattern generalizing t tokens with
  | nil =>
    cases h
    exact Tokenizer.Passes.refl _
  | cons s rest ih =>
    rw [readSequence, List.mapM_cons] at h
    change (readMatching false s >>= fun token => readSequence rest >>= fun others =>
      pure (token :: others)).run.run t = _ at h
    generalize hread : (readMatching false s).run.run t = taken at h
    obtain ⟨e | token, middle⟩ := taken
    · rw [run_bind_error hread] at h
      cases h
    rw [run_bind hread] at h
    generalize hothers : (readSequence rest).run.run middle = others at h
    obtain ⟨e | found, last⟩ := others
    · rw [run_bind_error hothers] at h
      cases h
    · rw [run_bind hothers] at h
      cases h
      exact (passes_readMatching hread).trans (ih hothers)

theorem passes_readSequenceIf {pattern : List Selector} {found : Option (List Token)}
    (h : (readSequenceIf pattern).run.run t = (.ok found, after)) :
    t.Passes (found.getD []) after := by
  have htransacts := transacts_readSequenceIf pattern t
  have hextends := extends_readSequenceIf pattern t
  rw [h] at htransacts hextends
  have hpasses : ∀ tokens : List Token, after.past = tokens.reverse ++ t.past →
      (∀ token ∈ tokens, token.isUnknown = true → t.acceptUnknown = true) →
        t.Passes tokens after := by
    intro tokens hpast hreadable
    refine ⟨hextends.history_eq, hextends.acceptUnknown_eq, hreadable,
      hpast ▸ List.prefix_refl _, ?_⟩
    simp only [hpast, List.length_append, List.length_reverse]
    omega
  cases htransacts with
  | read hanswers hpast =>
    refine hpasses _ hpast fun token hmem => ?_
    obtain ⟨i, hi, rfl⟩ := List.mem_iff_getElem.mp hmem
    exact Selector.readable_of_answer (hanswers.get (hanswers.length_eq ▸ hi) hi)
  | absent hpast => exact hpasses [] hpast (List.forall_mem_nil _)

/-- A known token that may be read is read. -/
theorem run_read_of_known (hhead : t.upcoming.head? = some token)
    (hreadable : token.isUnknown = true → t.acceptUnknown = true) :
    read.run.run t = (.ok token, t.stepForward) := by
  have hknown : t.upcoming ≠ [] := by
    rintro hnil
    rw [hnil] at hhead
    cases hhead
  have hread := Tokenizer.run_readMatching .any (Tokenizer.lookAhead_of_known hknown false)
  have hanswer : Selector.any.answer t.automaton t.acceptUnknown (some token) = .ok token := by
    cases hunknown : token.isUnknown with
    | false => simp [Selector.answer, hunknown]
    | true => simp [Selector.answer, hreadable hunknown]
  rw [hhead, hanswer] at hread
  exact hread

end Reading

namespace Use

variable {t before : Tokenizer} {tokens : List Token}

/-! ## Uses that succeed -/

/-- The tokens that a use has read, by its answer. -/
def consumed : Use → Answer → List Token
  | peek, _ => []
  | hasNext, _ => []
  | unread _, _ => []
  | _, .token found => found.toList
  | _, .tokens found => found.getD []
  | _, _ => []

/-- The answers to some uses, one after the other. -/
def answers (t : Tokenizer) : List Use → List Answer
  | [] => []
  | use :: uses => (use.run t).1 :: answers (use.run t).2 uses

/-- The tokens that are read by some uses, one after the other. -/
def tokensRead (t : Tokenizer) : List Use → List Token
  | [] => []
  | use :: uses => use.consumed (use.run t).1 ++ tokensRead (use.run t).2 uses

/-- A reading whose answer is not a failure has succeeded. -/
theorem exists_ok_of_answer {α : Type} (x : Reading α) {f : α → Answer}
    (hsucceeds : ∀ e, Answer.ofResult f (x.run.run t).1 ≠ .failed e) :
    ∃ r after, x.run.run t = (.ok r, after) := by
  generalize x.run.run t = result at hsucceeds
  obtain ⟨e | r, after⟩ := result
  · exact absurd rfl (hsucceeds e)
  · exact ⟨r, after, rfl⟩

/-- The next item of a walk that is a token is passed over. -/
theorem passes_next {item : Option (Except TokenizerError Token)} {after : Tokenizer}
    (h : t.next = (item, after)) (hitem : ∀ e, item ≠ some (.error e)) :
    t.Passes (item.elim [] fun found => found.toOption.toList) after := by
  have hlooked := Tokenizer.looked_lookAhead false t
  unfold Tokenizer.next at h
  generalize t.lookAhead false = result at h hlooked
  obtain ⟨e | there, looked⟩ := result
  · cases h
    exact absurd rfl (hitem e)
  cases there with
  | false =>
    cases h
    exact hlooked.passes
  | true =>
    simp only at h
    generalize hread : Reading.read.run.run looked = taken at h
    obtain ⟨e | token, last⟩ := taken
    · -- The item is the error, also where the walk steps over a token.
      cases e <;> (cases h; exact absurd rfl (hitem _))
    · cases h
      exact hlooked.passes.trans (Reading.passes_readMatching hread)

/-- A use that succeeds, other than unreading, passes over the tokens that it gives. -/
theorem passes_run (use : Use) (hunread : ∀ count, use ≠ unread count)
    (hsucceeds : ∀ e, (use.run t).1 ≠ .failed e) :
    t.Passes (use.consumed (use.run t).1) (use.run t).2 := by
  cases use with
  | peek =>
    have hlooked := Tokenizer.looked_lookAhead false t
    rw [run, Reading.peek]
    generalize hlook : t.lookAhead false = result at hlooked
    obtain ⟨e | there, looked⟩ := result
    · have hrun : (Reading.lookAhead false).run.run t = (.error e, looked) := hlook
      rw [Reading.run_bind_error hrun]
      exact hlooked.passes
    · have hrun : (Reading.lookAhead false).run.run t = (.ok there, looked) := hlook
      rw [Reading.run_bind hrun]
      exact hlooked.passes
  | hasNext => exact (Tokenizer.looked_lookAhead false t).passes
  | read =>
    obtain ⟨token, last, hread⟩ := exists_ok_of_answer Reading.read hsucceeds
    rw [run, hread]
    exact Reading.passes_readMatching hread
  | readExpect s =>
    obtain ⟨token, last, hread⟩ := exists_ok_of_answer (Reading.readExpect s) hsucceeds
    rw [run, hread]
    exact Reading.passes_readMatching hread
  | readIf s =>
    obtain ⟨found, last, hread⟩ := exists_ok_of_answer (Reading.readIf s) hsucceeds
    rw [run, hread]
    exact Reading.passes_readIf hread
  | readSequence pattern =>
    obtain ⟨found, last, hread⟩ := exists_ok_of_answer (Reading.readSequence pattern) hsucceeds
    rw [run, hread]
    exact Reading.passes_readSequence hread
  | readSequenceIf pattern =>
    obtain ⟨found, last, hread⟩ := exists_ok_of_answer (Reading.readSequenceIf pattern) hsucceeds
    rw [run, hread]
    exact Reading.passes_readSequenceIf hread
  | unread count => exact absurd rfl (hunread count)
  | next =>
    rw [run] at hsucceeds ⊢
    generalize hnext : t.next = result at hsucceeds ⊢
    obtain ⟨item, last⟩ := result
    have hitem : ∀ e, item ≠ some (.error e) := by
      rintro e rfl
      exact hsucceeds e rfl
    have hpasses := passes_next hnext hitem
    rcases item with - | (e | found)
    · exact hpasses
    · exact absurd rfl (hitem e)
    · exact hpasses

/-- Uses that succeed, other than unreading, pass over the tokens that they give. -/
theorem passes_after {uses : List Use} (hunread : ∀ count, unread count ∉ uses)
    (hsucceed : ∀ e, Answer.failed e ∉ answers t uses) :
    t.Passes (tokensRead t uses) (after t uses) := by
  induction uses generalizing t with
  | nil => exact Tokenizer.Passes.refl t
  | cons use uses ih =>
    have hfirst : t.Passes (use.consumed (use.run t).1) (use.run t).2 := by
      refine passes_run use (fun count heq => ?_) fun e heq => ?_
      · exact hunread count (heq ▸ List.mem_cons_self)
      · exact hsucceed e (heq ▸ List.mem_cons_self)
    refine hfirst.trans (ih (fun count hmem => ?_) fun e hmem => ?_)
    · exact hunread count (List.mem_cons_of_mem _ hmem)
    · exact hsucceed e (List.mem_cons_of_mem _ hmem)

/-- Known tokens that may be read are read one after the other. -/
theorem answers_read_of_known {rest : List Token} (hupcoming : t.upcoming = tokens ++ rest)
    (hreadable : ∀ token ∈ tokens, token.isUnknown = true → t.acceptUnknown = true) :
    answers t (List.replicate tokens.length read) =
      tokens.map fun token => Answer.token (some token) := by
  induction tokens generalizing t with
  | nil => rfl
  | cons token tokens ih =>
    obtain ⟨hfirst, hothers⟩ := List.forall_mem_cons.mp hreadable
    have hhead : t.upcoming.head? = some token := by rw [hupcoming]; rfl
    have hread := Reading.run_read_of_known hhead hfirst
    rw [List.length_cons, List.replicate_succ, answers, run, hread, List.map_cons]
    rw [Tokenizer.stepForward_eq hhead]
    refine congrArg₂ List.cons rfl (ih ?_ hothers)
    rw [hupcoming]
    rfl

/-- After tokens were passed over, the last of them can be unread, as many as are to be kept,
and are then read again. -/
theorem unread_rereads {found : List Token} {before last : Tokenizer}
    (hpasses : before.Passes found last) {k : Nat} (hk : k ≤ min found.length before.history) :
    (Reading.unread k).run.run last = (.ok (), last.stepBack k) ∧
      answers (last.stepBack k) (List.replicate k read) =
        (found.drop (found.length - k)).map fun token => Answer.token (some token) := by
  have hlength : k ≤ last.past.length := by
    have hkept := hpasses.kept
    omega
  refine ⟨Reading.run_unread k last hlength, ?_⟩
  -- What is kept begins with the tokens that were passed over last.
  have htake : last.past.take k = found.reverse.take k := by
    obtain ⟨given, hgiven⟩ := hpasses.past_prefix
    have hsame := congrArg (List.take k) hgiven
    rw [List.take_append_of_le_length hlength, List.take_append_of_le_length (by simp; omega)]
      at hsame
    exact hsame
  have hback : (last.stepBack k).upcoming = found.drop (found.length - k) ++ last.upcoming := by
    rw [Tokenizer.stepBack, htake, List.take_reverse, List.reverse_reverse]
  have hreadable : ∀ token ∈ found.drop (found.length - k), token.isUnknown = true →
      (last.stepBack k).acceptUnknown = true := by
    intro token hmem hunknown
    exact hpasses.acceptUnknown_eq.trans
      (hpasses.readable token (List.mem_of_mem_drop hmem) hunknown)
  have hanswers := answers_read_of_known hback hreadable
  rwa [List.length_drop, Nat.sub_sub_self (by omega)] at hanswers

end Use

/-! ## From the start of a text -/

/-- A text has no more tokens than characters. -/
theorem Automaton.length_munch_le (a : Automaton) (p : Position) (s : List Char) :
    (a.munch p s).length ≤ s.length := by
  fun_induction Automaton.munch a p s with
  | case1 p => exact Nat.le_refl 0
  | case2 p c s found text ih =>
    rw [List.length_drop] at ih
    simp only [List.length_cons]
    omega

theorem Automaton.length_stream_le (a : Automaton) (skipId : Option Int) (p : Position)
    (s : List Char) : (a.stream skipId p s).length ≤ s.length :=
  (List.length_filter_le _ _).trans (a.length_munch_le p s)

namespace Tokenizer

/-- How many tokens are to be kept never changes. -/
theorem invariant_history (history : Nat) (pinned : Bool) :
    Invariant pinned fun t => t.history = history where
  lookAhead h := (looked_lookAhead pinned _).passes.history_eq.trans h
  stepForward h := (extends_stepForward _).history_eq.trans h
  stepBack _ h := h

theorem history_of_ofText {a : Automaton} {config : TokenizerConfig} {text : String}
    {t : Tokenizer} (hcreate : ofText a config text = .ok t) : t.history = config.history := by
  unfold ofText create at hcreate
  split at hcreate
  · cases hcreate
    rfl
  · split at hcreate
    · cases hcreate
      rfl
    · cases hcreate

/-- Whatever uses were made of a tokenizer for a text: after reads of any kind that succeed, the
tokens that they gave can be unread from the last one on, as many as are to be kept, and the next
reads give the same tokens again.  And where looking ahead adds a token while nothing is pinned,
also within a use, there are not more than twice as many tokens as are to be kept, or one. -/
theorem history_keeps_and_limits {a : Automaton} (hstart : a.accepting a.start = none)
    {config : TokenizerConfig} {text : String} {t : Tokenizer}
    (hcreate : ofText a config text = .ok t) (hcounted : text.length < UInt64.size) :
    (∀ uses reads : List Use, (∀ count, .unread count ∉ reads) →
      let before := Use.after t uses
      (∀ e, .failed e ∉ Use.answers before reads) →
        let last := Use.after before reads
        let found := Use.tokensRead before reads
        ∀ k ≤ min found.length config.history,
          (Reading.unread k).run.run last = (.ok (), last.stepBack k) ∧
            Use.answers (last.stepBack k) (List.replicate k .read) =
              (found.drop (found.length - k)).map fun token => .token (some token)) ∧
      (∀ uses, t.Reached (Use.after t uses)) ∧
        ∀ u, t.Reached u → u.upcoming = [] → (u.lookAhead false).2.upcoming ≠ [] →
          (u.lookAhead false).2.tokens.length ≤
            max (min (2 * config.history) (UInt64.size - 1)) 1 := by
  have hhistory : ∀ u, t.Reached u → u.history = config.history := fun u hu =>
    hu.of_invariant (invariant_history config.history) (history_of_ofText hcreate)
  refine ⟨?_, Use.reached_after t, ?_⟩
  · intro uses reads hunread before hsucceed last found k hk
    rw [← hhistory before (Use.reached_after t uses)] at hk
    exact Use.unread_rereads (Use.passes_after hunread hsucceed) hk
  · intro u hu hunknown hknown
    -- Where a token is added, the place is in front of one of the tokens of the text.
    obtain ⟨place, hstands⟩ := hu.of_invariant (invariant_stands a config.acceptUnknown _)
      ⟨0, stands_of_ofText hstart hcreate⟩
    obtain ⟨lo, hlo, -, -⟩ := hstands.exists_block
    obtain ⟨after, hlook, -, hhead, -⟩ := hstands.exists_lookAhead_ok false
    have hlooked := looked_lookAhead false u
    rw [hlook] at hknown hlooked ⊢
    obtain ⟨token, rest, hcons⟩ := List.exists_cons_of_ne_nil hknown
    rw [hcons, List.head?_cons] at hhead
    obtain ⟨hplace, -⟩ := List.getElem?_eq_some_iff.mp hhead.symm
    have hlength := a.length_stream_le (config.skip.bind a.tokenId?) Position.first text.toList
    rw [String.length_toList] at hlength
    have hlimit := hlooked.length_tokens_le hunknown hknown (by omega)
    rwa [hhistory u hu] at hlimit

/-- Words that are read one token at a time and kept one at a time. -/
theorem history_keeps_letterWords :
    Automaton.letterWords.accepting Automaton.letterWords.start = none ∧
      ofText Automaton.letterWords ⟨some "WS", 1, false, 4⟩ "ab a?b" =
        .ok { letterWordsTokenizer with history := 1 } ∧
      "ab a?b".length < UInt64.size ∧
        ∃ last, last = Use.after { letterWordsTokenizer with history := 1 }
            [.readSequenceIf [.any, .any, .any], .peek, .read, .hasNext, .next] ∧
          (Reading.unread 1).run.run last = (.ok (), last.stepBack 1) ∧
            Use.answers (last.stepBack 1) [.read] = [.token (some ⟨0, "a", ⟨1, 4⟩⟩)] := by
  have hstart : Automaton.letterWords.accepting Automaton.letterWords.start = none := rfl
  have hcreate : ofText Automaton.letterWords ⟨some "WS", 1, false, 4⟩ "ab a?b" =
      .ok { letterWordsTokenizer with history := 1 } := by
    with_unfolding_all rfl
  have hcounted : "ab a?b".length < UInt64.size := by decide
  obtain ⟨hreads, -⟩ := history_keeps_and_limits hstart hcreate hcounted
  have hanswers : Use.answers (Use.after { letterWordsTokenizer with history := 1 }
      [.readSequenceIf [.any, .any, .any]]) [.peek, .read, .hasNext, .next] =
        [.token (some ⟨0, "ab", ⟨1, 1⟩⟩), .token (some ⟨0, "ab", ⟨1, 1⟩⟩), .flag true,
          .token (some ⟨0, "a", ⟨1, 4⟩⟩)] := by
    decide +kernel
  have hfound : Use.tokensRead (Use.after { letterWordsTokenizer with history := 1 }
      [.readSequenceIf [.any, .any, .any]]) [.peek, .read, .hasNext, .next] =
        [⟨0, "ab", ⟨1, 1⟩⟩, ⟨0, "a", ⟨1, 4⟩⟩] := by
    decide +kernel
  have hlast := hreads [.readSequenceIf [.any, .any, .any]] [.peek, .read, .hasNext, .next]
    (by simp) (by rw [hanswers]; simp) 1 (by rw [hfound]; decide)
  rw [hfound] at hlast
  exact ⟨hstart, hcreate, hcounted, _, rfl, hlast⟩

end Tokenizer
end Munch

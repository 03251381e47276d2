import Munch.Proofs.Tokenizer.Standing

/-!
# Reading from a source that fails

A caller that reads again after each failure of the source gets the tokens of the text that
the source delivers in the end.  Neither the way the octets are cut nor the places where the
source fails matter.

Main results:

- Theorem {lit}`Tokenizer.Receives.unique`: a caller receives one list of tokens only.
- Theorem {lit}`Tokenizer.Stands.receives`: it receives the tokens from the place on where the
  tokenizer stands.
- Theorem {lit}`Tokenizer.receives_from_source`: from a source it receives the same tokens as
  from the whole text.
-/

namespace Munch
namespace Tokenizer

/-- A caller that reads again after each failure of the source receives some tokens, and then
there are no more, also when it asks again. -/
inductive Receives : Tokenizer → List Token → Prop where
  | done {t after : Tokenizer} (hread : Reading.read.run.run t = (.error .noMoreTokens, after))
      (hafter : Reading.read.run.run after = (.error .noMoreTokens, after)) : Receives t []
  | again {t after : Tokenizer} {message : String} {tokens : List Token}
      (hread : Reading.read.run.run t = (.error (.source message), after))
      (hrest : Receives after tokens) : Receives t tokens
  | token {t after : Tokenizer} {token : Token} {tokens : List Token}
      (hread : Reading.read.run.run t = (.ok token, after)) (hrest : Receives after tokens) :
      Receives t (token :: tokens)

/-- A caller receives one list of tokens only. -/
theorem Receives.unique {t : Tokenizer} {tokens others : List Token}
    (hreceives : t.Receives tokens) (hothers : t.Receives others) : tokens = others := by
  induction hreceives generalizing others with
  | done hread _ =>
    cases hothers with
    | done _ _ => rfl
    | again hread' _ => rw [hread] at hread'; cases hread'
    | token hread' _ => rw [hread] at hread'; cases hread'
  | again hread _ ih =>
    cases hothers with
    | done hread' _ => rw [hread] at hread'; cases hread'
    | again hread' hrest =>
      rw [hread] at hread'
      cases hread'
      exact ih hrest
    | token hread' _ => rw [hread] at hread'; cases hread'
  | token hread _ ih =>
    cases hothers with
    | done hread' _ => rw [hread] at hread'; cases hread'
    | again hread' _ => rw [hread] at hread'; cases hread'
    | token hread' hrest =>
      rw [hread] at hread'
      cases hread'
      rw [ih hrest]

variable {t after : Tokenizer} {a : Automaton} {tokens : List Token} {messages : List String}
  {place : Nat}

/-- Where looking ahead has found the end, it finds the end again. -/
theorem lookAhead_again (hlook : t.lookAhead false = (.ok false, after)) :
    after.lookAhead false = (.ok false, after) := by
  fun_induction lookAhead false t with
  | case2 t hupcoming hinput =>
    cases hlook
    exact lookAhead_nil (by simpa using hupcoming) hinput
  | case7 =>
    rename_i ih
    exact ih hlook
  | case8 t hupcoming c tail hinput best hscan found next hskip hlength =>
    cases hlook
    have hnone : after.upcoming = [] := by simpa using hupcoming
    rw [lookAhead_matched hnone hinput hscan]
    exact (if_pos hskip).trans (if_neg hlength)
  | case1 | case3 | case4 | case5 | case6 | case9 => cases hlook

/-- Where any token may be read, reading gives the next one, or there is none. -/
theorem run_read_of_lookAhead {there : Bool} (hlook : t.lookAhead false = (.ok there, after))
    (haccept : after.acceptUnknown = true) :
    Reading.read.run.run t =
      match after.upcoming.head? with
      | none => (.error .noMoreTokens, after)
      | some token => (.ok token, after.stepForward) := by
  have hread := run_readMatching .any hlook
  rw [haccept] at hread
  rw [Reading.read, hread]
  cases after.upcoming.head? with
  | none => rfl
  | some token => simp [Selector.answer, Except.isOk, Except.toBool]

/-- A caller receives the tokens from the place on where the tokenizer stands. -/
theorem Stands.receives (hstands : t.Stands a true tokens messages place) :
    t.Receives (tokens.drop place) := by
  -- Each failure takes a message away, and each token moves the place on.
  induction hremaining : messages.length + (tokens.length - place) using Nat.strong_induction_on
    generalizing t messages place with
  | _ n ih =>
    rcases hstands.exists_lookAhead false with
      ⟨after, hlook, hafter, hhead, -⟩ | ⟨message, others, after, rfl, hlook, hafter, -⟩
    · have hread := run_read_of_lookAhead hlook hafter.acceptUnknown_eq
      rw [hhead] at hread
      cases htoken : tokens[place]? with
      | none =>
        rw [htoken] at hread hlook hhead
        have hend := run_read_of_lookAhead (lookAhead_again hlook) hafter.acceptUnknown_eq
        rw [hhead] at hend
        rw [List.drop_eq_nil_of_le (List.getElem?_eq_none_iff.mp htoken)]
        exact Receives.done hread hend
      | some token =>
        rw [htoken] at hread
        obtain ⟨hlt, rfl⟩ := List.getElem?_eq_some_iff.mp htoken
        rw [List.drop_eq_getElem_cons hlt]
        exact Receives.token hread (ih _ (by omega) (hafter.stepForward (hhead.trans htoken)).1 rfl)
    · have hread : Reading.read.run.run t = (.error (.source message), after) := by
        have hrun : (Reading.lookAhead false).run.run t = (.error (.source message), after) := hlook
        rw [Reading.read, Reading.readMatching, Reading.run_bind_error hrun]
      exact Receives.again hread (ih _ (by simp at hremaining; omega) hafter rfl)

theorem exists_create_eq_ok {config : TokenizerConfig}
    (hskip : ∀ name ∈ config.skip, ∃ id, a.tokenId? name = some id) (arrivals : List Arrival) :
    ∃ t, create a config arrivals = .ok t := by
  unfold create
  cases hname : config.skip with
  | none => exact ⟨_, rfl⟩
  | some name =>
    obtain ⟨id, hid⟩ := hskip name hname
    simp only [hid]
    exact ⟨_, rfl⟩

/-- From a source that delivers the octets of a text in pieces, that may be interrupted and that
fails now and then, a caller that reads again after each failure receives the tokens of the
text, as from the text as a whole. -/
theorem receives_from_source {a : Automaton} (hstart : a.accepting a.start = none)
    {config : TokenizerConfig} (haccept : config.acceptUnknown = true)
    (hskip : ∀ name ∈ config.skip, ∃ id, a.tokenId? name = some id)
    {text : String} {arrivals : List Arrival} (hpieces : .bytes [] ∉ arrivals)
    (hoctets : arrivals.flatMap Arrival.octets = text.toUTF8.data.toList) :
    ∃ t whole tokens, create a config arrivals = .ok t ∧ ofText a config text = .ok whole ∧
      tokens = a.stream (config.skip.bind a.tokenId?) Position.first text.toList ∧
        t.Receives tokens ∧ whole.Receives tokens := by
  obtain ⟨t, ht⟩ := exists_create_eq_ok hskip arrivals
  obtain ⟨whole, hwhole⟩ := exists_create_eq_ok hskip [.bytes text.toUTF8.data.toList]
  have hspells := CharEvent.spells_ofSource (max config.chunk 4) hpieces hoctets
  have hfirst := stands_of_create hstart hspells ht
  have hsecond := stands_of_ofText hstart hwhole
  rw [haccept] at hfirst hsecond
  exact ⟨t, whole, _, ht, hwhole, rfl, hfirst.receives, hsecond.receives⟩

/-- The source fails within the octets of a letter. -/
theorem receives_from_source_accent :
    ∃ t tokens, create Automaton.letterWords ⟨some "WS", 0, true, 4⟩
        [.bytes [97], .interrupted, .bytes [98, 32, 0xC3], .failure "lost", .bytes [0xA9, 97]] =
          .ok t ∧ t.Receives tokens ∧
        tokens = [⟨0, "ab", ⟨1, 1⟩⟩, ⟨unknownToken, "é", ⟨1, 4⟩⟩, ⟨0, "a", ⟨1, 5⟩⟩] := by
  have hstart : Automaton.letterWords.accepting Automaton.letterWords.start = none := rfl
  have haccept : (⟨some "WS", 0, true, 4⟩ : TokenizerConfig).acceptUnknown = true := rfl
  have hskip : ∀ name ∈ some "WS", ∃ id, Automaton.letterWords.tokenId? name = some id := by
    intro name hname
    obtain rfl := Option.mem_some_iff.mp hname
    exact ⟨1, by decide +kernel⟩
  have hpieces : Arrival.bytes [] ∉ [.bytes [97], .interrupted, .bytes [98, 32, 0xC3],
      .failure "lost", .bytes [0xA9, 97]] := by
    decide
  have hoctets : [.bytes [97], .interrupted, .bytes [98, 32, 0xC3], .failure "lost",
      .bytes [0xA9, 97]].flatMap Arrival.octets = "ab éa".toUTF8.data.toList := by
    decide +kernel
  obtain ⟨t, whole, tokens, ht, -, htokens, hreceives, -⟩ :=
    receives_from_source hstart haccept hskip hpieces hoctets
  refine ⟨t, tokens, ht, hreceives, htokens.trans ?_⟩
  decide +kernel

end Tokenizer
end Munch

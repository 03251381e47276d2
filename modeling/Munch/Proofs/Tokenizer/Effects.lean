import Munch.Proofs.Tokenizer.Looking
import Munch.Proofs.Tokenizer.Uses

/-!
# What a use does to a tokenizer

A use looks ahead and moves over known tokens, and does nothing else to a tokenizer.  What these
steps keep every use keeps, also one that fails.  A sequence that is not there leaves the tokens
that were read as they were.

Main results:

- Theorem {lit}`Reading.reads_readMatching`: how reading a token ends.
- Theorem {lit}`Reading.transacts_readSequenceIf`: how reading a sequence, or nothing, ends.
- Theorem {lit}`Use.keeps_after`: what each step keeps is kept by uses in any order.
-/

namespace Munch
namespace Tokenizer

variable {t middle after : Tokenizer} {pinned : Bool} {token : Token}

/-- A step over a token that was read ahead moves it to the past. -/
theorem stepForward_eq (hhead : t.upcoming.head? = some token) :
    t.stepForward = { t with past := token :: t.past, upcoming := t.upcoming.tail } := by
  obtain ⟨rest, hupcoming⟩ := List.head?_eq_some_iff.mp hhead
  rw [stepForward, hupcoming, List.tail_cons]

/-! ## Tokens added at the end -/

/-- Nothing has changed in how a tokenizer reads, and tokens were added behind all others. -/
structure Extends (t after : Tokenizer) : Prop where
  automaton_eq : after.automaton = t.automaton
  history_eq : after.history = t.history
  acceptUnknown_eq : after.acceptUnknown = t.acceptUnknown
  tokens_prefix : t.tokens <+: after.tokens

/-- A tokenizer is an extension of itself. -/
theorem Extends.refl (t : Tokenizer) : Extends t t := ⟨rfl, rfl, rfl, List.prefix_refl _⟩

/-- An extension of an extension is one of the first tokenizer. -/
theorem Extends.trans (hfirst : Extends t middle) (hsecond : Extends middle after) :
    Extends t after where
  automaton_eq := hsecond.automaton_eq.trans hfirst.automaton_eq
  history_eq := hsecond.history_eq.trans hfirst.history_eq
  acceptUnknown_eq := hsecond.acceptUnknown_eq.trans hfirst.acceptUnknown_eq
  tokens_prefix := hfirst.tokens_prefix.trans hsecond.tokens_prefix

/-- Looking ahead without giving up the past adds tokens at the end. -/
theorem Looked.toExtends (hlooked : Looked true t after) : Extends t after := by
  cases hlooked with
  | stayed input position => exact ⟨rfl, rfl, rfl, List.prefix_refl _⟩
  | pushed input position token hupcoming =>
    refine ⟨rfl, rfl, rfl, ?_⟩
    rw [tokens, hupcoming, List.append_nil]
    exact List.prefix_append _ _

/-- A step forward adds nothing, and leaves all tokens. -/
theorem extends_stepForward (t : Tokenizer) : Extends t t.stepForward := by
  refine ⟨?_, ?_, ?_, tokens_stepForward t ▸ List.prefix_refl _⟩ <;>
    (unfold stepForward; split <;> rfl)

/-- So does a step back. -/
theorem extends_stepBack (t : Tokenizer) (count : Nat) : Extends t (t.stepBack count) :=
  ⟨rfl, rfl, rfl, tokens_stepBack t count ▸ List.prefix_refl _⟩

/-! ## What every step keeps -/

/-- A property of tokenizers that looking ahead and moving over tokens keep. -/
structure Invariant (pinned : Bool) (P : Tokenizer → Prop) : Prop where
  lookAhead : ∀ {t : Tokenizer}, P t → P (t.lookAhead pinned).2
  stepForward : ∀ {t : Tokenizer}, P t → P t.stepForward
  stepBack : ∀ {t : Tokenizer} (count : Nat), P t → P (t.stepBack count)

/-- A tokenizer between two steps of its uses, which are looking ahead and moving over
tokens. -/
inductive Reached (t : Tokenizer) : Tokenizer → Prop where
  | start : Reached t t
  | lookAhead {u : Tokenizer} (hreached : Reached t u) (pinned : Bool) :
      Reached t (u.lookAhead pinned).2
  | stepForward {u : Tokenizer} (hreached : Reached t u) : Reached t u.stepForward
  | stepBack {u : Tokenizer} (hreached : Reached t u) (count : Nat) : Reached t (u.stepBack count)

/-- What each step keeps is so between any two steps. -/
theorem Reached.of_invariant {P : Tokenizer → Prop} (hsteps : ∀ pinned, Invariant pinned P)
    (ht : P t) (hreached : t.Reached after) : P after := by
  induction hreached with
  | start => exact ht
  | lookAhead _ pinned ih => exact (hsteps pinned).lookAhead ih
  | stepForward _ ih => exact (hsteps true).stepForward ih
  | stepBack _ count ih => exact (hsteps true).stepBack count ih

/-- A tokenizer for a text always stands somewhere among the tokens. -/
theorem invariant_stands (a : Automaton) (acceptUnknown : Bool) (tokens : List Token)
    (pinned : Bool) :
    Invariant pinned fun t => ∃ place, t.Stands a acceptUnknown tokens [] place where
  lookAhead := by
    rintro t ⟨place, hstands⟩
    obtain ⟨after, hlook, hafter, -⟩ := hstands.exists_lookAhead_ok pinned
    rw [hlook]
    exact ⟨place, hafter⟩
  stepForward := by
    rintro t ⟨place, hstands⟩
    cases hhead : t.upcoming.head? with
    | none =>
      rw [List.head?_eq_none_iff] at hhead
      rw [stepForward, hhead]
      exact ⟨place, hstands⟩
    | some token => exact ⟨place + 1, (hstands.stepForward hhead).1⟩
  stepBack := by
    rintro t count ⟨place, hstands⟩
    -- One can step back no further than over all tokens that are kept.
    have hsame : t.stepBack count = t.stepBack (min count t.past.length) := by
      rw [stepBack, stepBack, List.take_eq_take_min, List.drop_eq_drop_min]
    rw [hsame]
    exact ⟨_, hstands.stepBack (Nat.min_le_right _ _)⟩

/-- While tokens are pinned, tokens are only added. -/
theorem invariant_extends (t : Tokenizer) : Invariant true (Extends t) where
  lookAhead h := h.trans (looked_lookAhead true _).toExtends
  stepForward h := h.trans (extends_stepForward _)
  stepBack count h := h.trans (extends_stepBack _ count)

end Tokenizer

namespace Reading

variable {t after : Tokenizer} {pinned : Bool} {s : Selector}

/-! ## How reading ends -/

/-- Asking whether the next token is expected looks ahead and does no more. -/
theorem looked_nextMatches (pinned : Bool) (s : Selector) (t : Tokenizer) :
    t.Looked pinned ((nextMatches pinned s).run.run t).2 := by
  have hlooked := Tokenizer.looked_lookAhead pinned t
  generalize hlook : t.lookAhead pinned = result at hlooked
  obtain ⟨e | there, looked⟩ := result
  · have hrun : (lookAhead pinned).run.run t = (.error e, looked) := hlook
    rw [nextMatches, run_bind_error hrun]
    exact hlooked
  · have hrun : (lookAhead pinned).run.run t = (.ok there, looked) := hlook
    rw [nextMatches, run_bind hrun]
    exact hlooked

/-- How reading a token ends: it was the next one and may be read, or nothing was read. -/
inductive Reads (pinned : Bool) (s : Selector) (t : Tokenizer) :
    Except TokenizerError Token × Tokenizer → Prop where
  | took {looked : Tokenizer} {token : Token} (hlooked : t.Looked pinned looked)
      (hhead : looked.upcoming.head? = some token)
      (hanswer : s.answer looked.automaton looked.acceptUnknown (some token) = .ok token) :
      Reads pinned s t (.ok token, looked.stepForward)
  | failed {after : Tokenizer} {e : TokenizerError} (hlooked : t.Looked pinned after) :
      Reads pinned s t (.error e, after)

/-- Reading a token that a selector matches ends in one of the ways of doing so. -/
theorem reads_readMatching (pinned : Bool) (s : Selector) (t : Tokenizer) :
    Reads pinned s t ((readMatching pinned s).run.run t) := by
  have hlooked := Tokenizer.looked_lookAhead pinned t
  generalize hlook : t.lookAhead pinned = result at hlooked
  obtain ⟨e | there, looked⟩ := result
  · have hrun : (lookAhead pinned).run.run t = (.error e, looked) := hlook
    rw [readMatching, run_bind_error hrun]
    exact Reads.failed hlooked
  · rw [Tokenizer.run_readMatching s hlook]
    cases hanswer : s.answer looked.automaton looked.acceptUnknown looked.upcoming.head? with
    | ok token =>
      have hhead := Selector.answer_eq_ok hanswer
      exact Reads.took hlooked hhead (hhead ▸ hanswer)
    | error e => exact Reads.failed hlooked

/-- How reading a sequence, or nothing, ends: the tokens are those that were read last, or
those that were read before are the same. -/
inductive Transacts (pattern : List Selector) (t : Tokenizer) :
    Except TokenizerError (Option (List Token)) × Tokenizer → Prop where
  | read {tokens : List Token} {after : Tokenizer}
      (hanswers : List.Forall₂
        (fun s token => s.answer t.automaton t.acceptUnknown (some token) = .ok token)
        pattern tokens)
      (hpast : after.past = tokens.reverse ++ t.past) :
      Transacts pattern t (.ok (some tokens), after)
  | absent {after : Tokenizer} (hpast : after.past = t.past) : Transacts pattern t (.ok none, after)
  | failed {after : Tokenizer} {e : TokenizerError} (hpast : after.past = t.past) :
      Transacts pattern t (.error e, after)

/-- Reading a sequence all or nothing ends in one of the ways of doing so. -/
theorem transacts_readSequenceIf (pattern : List Selector) (t : Tokenizer) :
    Transacts pattern t ((readSequenceIf pattern).run.run t) := by
  induction pattern generalizing t with
  | nil => exact Transacts.read List.Forall₂.nil rfl
  | cons s rest ih =>
    rw [readSequenceIf]
    have hlooked := looked_nextMatches true s t
    generalize hnext : (nextMatches true s).run.run t = next at hlooked
    obtain ⟨e | there, looked⟩ := next
    · rw [run_bind_error hnext]
      exact Transacts.failed hlooked.past_eq
    rw [run_bind hnext]
    cases there with
    | false => exact Transacts.absent hlooked.past_eq
    | true =>
      rw [if_pos rfl]
      have hreads := reads_readMatching true s looked
      generalize hread : (readMatching true s).run.run looked = taken at hreads
      cases hreads with
      | failed hknown =>
        rw [run_bind_error hread]
        exact Transacts.failed (hknown.past_eq.trans hlooked.past_eq)
      | @took known token hknown hhead hanswer =>
        rw [run_bind hread]
        have hextends := hlooked.toExtends.trans hknown.toExtends
        have hmoved := hextends.trans (Tokenizer.extends_stepForward known)
        have hpast : known.stepForward.past = token :: t.past := by
          rw [Tokenizer.stepForward_eq hhead, hknown.past_eq, hlooked.past_eq]
        -- Stepping back over the first token undoes its reading.
        have hback : ∀ after : Tokenizer, after.past = known.stepForward.past →
            (after.stepBack 1).past = t.past := by
          intro after hafter
          rw [Tokenizer.stepBack, hafter, hpast]
          rfl
        have hrest := ih known.stepForward
        generalize hothers : (readSequenceIf rest).run.run known.stepForward = others at hrest
        cases hrest with
        | read hanswers hafter =>
          rw [run_bind (run_tryCatch_ok hothers)]
          rw [hextends.automaton_eq, hextends.acceptUnknown_eq] at hanswer
          rw [hmoved.automaton_eq, hmoved.acceptUnknown_eq] at hanswers
          refine Transacts.read (List.Forall₂.cons hanswer hanswers) ?_
          rw [hafter, hpast, List.reverse_cons, List.append_assoc]
          rfl
        | absent hafter =>
          rw [run_bind (run_tryCatch_ok hothers)]
          exact Transacts.absent (hback _ hafter)
        | failed hafter =>
          rw [run_bind_error (run_tryCatch_error hothers)]
          exact Transacts.failed (hback _ hafter)

/-! ## What every step keeps a reading keeps -/

/-- A reading keeps a property of tokenizers, also when it fails. -/
def Keeps {α : Type} (P : Tokenizer → Prop) (x : Reading α) : Prop :=
  ∀ t, P t → P (x.run.run t).2

section Keeps

variable {α β : Type} {P : Tokenizer → Prop} {x : Reading α} {f : α → Reading β}

/-- What is kept by two computations is kept by one behind the other. -/
theorem Keeps.bind (hx : Keeps P x) (hf : ∀ r, Keeps P (f r)) : Keeps P (x >>= f) := by
  intro t ht
  have hmiddle := hx t ht
  generalize hrun : x.run.run t = result at hmiddle
  obtain ⟨e | r, middle⟩ := result
  · rw [run_bind_error hrun]
    exact hmiddle
  · rw [run_bind hrun]
    exact hf r middle hmiddle

theorem Keeps.pure (r : α) : Keeps P (pure r : Reading α) := fun _ ht => ht

theorem Keeps.throw (e : TokenizerError) : Keeps P (throw e : Reading α) := fun _ ht => ht

theorem Keeps.get : Keeps P (get : Reading Tokenizer) := fun _ ht => ht

/-- What is kept on failure is kept by a handler. -/
theorem Keeps.tryCatch {handle : TokenizerError → Reading α} (hx : Keeps P x)
    (hhandle : ∀ e, Keeps P (handle e)) : Keeps P (tryCatch x handle) := by
  intro t ht
  have hmiddle := hx t ht
  generalize hrun : x.run.run t = result at hmiddle
  obtain ⟨e | r, middle⟩ := result
  · rw [run_tryCatch_error hrun]
    exact hhandle e middle hmiddle
  · rw [run_tryCatch_ok hrun]
    exact hmiddle

section Invariant

variable (hinvariant : Tokenizer.Invariant pinned P)
include hinvariant

/-- Looking ahead keeps what is kept by filling and steps. -/
theorem keeps_lookAhead : Keeps P (lookAhead pinned) := fun _ ht => hinvariant.lookAhead ht

theorem keeps_nextMatches (s : Selector) : Keeps P (nextMatches pinned s) :=
  (keeps_lookAhead hinvariant).bind fun _ => Keeps.get.bind fun _ => Keeps.pure _

/-- So does reading a token that a selector matches. -/
theorem keeps_readMatching (s : Selector) : Keeps P (readMatching pinned s) := by
  have hmove : Keeps P (modify Tokenizer.stepForward : Reading PUnit) := fun _ ht =>
    hinvariant.stepForward ht
  refine (keeps_lookAhead hinvariant).bind fun _ => Keeps.get.bind fun t => ?_
  split
  · exact Keeps.throw _
  · split
    · exact Keeps.throw _
    · split
      · exact Keeps.throw _
      · exact hmove.bind fun _ => Keeps.pure _

theorem keeps_putBack : Keeps P putBack := fun _ ht => hinvariant.stepBack 1 ht

/-- So does going back. -/
theorem keeps_unread (count : Nat) : Keeps P (unread count) := by
  intro t ht
  by_cases hcount : count ≤ t.past.length
  · rw [run_unread count t hcount]
    exact hinvariant.stepBack count ht
  · rw [run_unread_of_lt (Nat.lt_of_not_le hcount)]
    exact ht

end Invariant

/-- So does reading a sequence all or nothing, which never gives up the past. -/
theorem keeps_readSequenceIf (hinvariant : Tokenizer.Invariant true P) (pattern : List Selector) :
    Keeps P (readSequenceIf pattern) := by
  induction pattern with
  | nil => exact Keeps.pure _
  | cons s rest ih =>
    have hback := keeps_putBack hinvariant
    refine (keeps_nextMatches hinvariant s).bind fun there => ?_
    split
    · refine (keeps_readMatching hinvariant s).bind fun token => ?_
      refine (ih.tryCatch fun e => hback.bind fun _ => Keeps.throw e).bind fun others => ?_
      split
      · exact Keeps.pure _
      · exact hback.bind fun _ => Keeps.pure _
    · exact Keeps.pure _

/-- So does reading a sequence, which does not give back. -/
theorem keeps_readSequence (hinvariant : Tokenizer.Invariant false P) (pattern : List Selector) :
    Keeps P (readSequence pattern) := by
  induction pattern with
  | nil => exact Keeps.pure _
  | cons s rest ih =>
    rw [readSequence, List.mapM_cons]
    exact (keeps_readMatching hinvariant s).bind fun _ => ih.bind fun _ => Keeps.pure _

end Keeps

/-- Reading a sequence, or nothing, gives up no tokens. -/
theorem extends_readSequenceIf (pattern : List Selector) (t : Tokenizer) :
    t.Extends ((readSequenceIf pattern).run.run t).2 :=
  keeps_readSequenceIf (Tokenizer.invariant_extends t) pattern t (Tokenizer.Extends.refl t)

end Reading

/-! ## What every step keeps a use keeps -/

section Invariant

variable {P : Tokenizer → Prop} {t : Tokenizer} (hfree : Tokenizer.Invariant false P)
include hfree

/-- So does passing a token over. -/
theorem Tokenizer.Invariant.next (ht : P t) : P t.next.2 := by
  have hlooked := hfree.lookAhead ht
  unfold Tokenizer.next
  generalize t.lookAhead false = result at hlooked
  obtain ⟨e | there, looked⟩ := result
  · exact hlooked
  · cases there with
    | false => exact hlooked
    | true =>
      have hread := Reading.keeps_readMatching hfree .any looked hlooked
      change P (Reading.read.run.run looked).2 at hread
      simp only
      generalize Reading.read.run.run looked = taken at hread
      split
      · exact hfree.stepForward hread
      · exact hread

variable (hpinned : Tokenizer.Invariant true P)
include hpinned

/-- Every use keeps what is kept by filling and steps. -/
theorem Use.keeps (use : Use) (ht : P t) : P (use.run t).2 := by
  cases use with
  | peek =>
    exact ((Reading.keeps_lookAhead hfree).bind fun _ => Reading.Keeps.get.bind fun _ =>
      Reading.Keeps.pure _) t ht
  | hasNext => exact Reading.keeps_lookAhead hfree t ht
  | read => exact Reading.keeps_readMatching hfree .any t ht
  | readExpect s => exact Reading.keeps_readMatching hfree s t ht
  | readIf s =>
    refine ((Reading.keeps_nextMatches hfree s).bind fun there => ?_) t ht
    split
    · exact (Reading.keeps_readMatching hfree s).bind fun _ => Reading.Keeps.pure _
    · exact Reading.Keeps.pure _
  | readSequence pattern => exact Reading.keeps_readSequence hfree pattern t ht
  | readSequenceIf pattern => exact Reading.keeps_readSequenceIf hpinned pattern t ht
  | unread count => exact Reading.keeps_unread hfree count t ht
  | next => exact hfree.next ht

end Invariant

namespace Use

/-- A tokenizer after some uses of it, one after the other. -/
def after (t : Tokenizer) (uses : List Use) : Tokenizer :=
  uses.foldl (fun t use => (use.run t).2) t

/-- What each step keeps is kept by uses in any order. -/
theorem keeps_after {P : Tokenizer → Prop} (hfree : Tokenizer.Invariant false P)
    (hpinned : Tokenizer.Invariant true P) (uses : List Use) {t : Tokenizer} (ht : P t) :
    P (after t uses) := by
  induction uses generalizing t with
  | nil => exact ht
  | cons use uses ih => exact ih (use.keeps hfree hpinned ht)

/-- A tokenizer after some uses is between two steps. -/
theorem reached_after (t : Tokenizer) (uses : List Use) : t.Reached (after t uses) :=
  keeps_after ⟨fun h => h.lookAhead false, fun h => h.stepForward, fun count h => h.stepBack count⟩
    ⟨fun h => h.lookAhead true, fun h => h.stepForward, fun count h => h.stepBack count⟩ uses
    Tokenizer.Reached.start

end Use
end Munch

import Munch.Proofs.Text.Utf8
import Munch.Tokenizer.Reading

/-!
# Walking over the tokens of a text

A tokenizer that reads a text cuts off one match after the other.  Between two items
nothing is known of what comes next, and only the rest of the text matters.

Main results:

- Theorem {lit}`Tokenizer.Walks.unique`: a tokenizer has one walk only.
- Theorem {lit}`Tokenizer.lookAhead_matched`: a match is dropped or comes next.
- Theorem {lit}`Tokenizer.Ready.lookAhead_cons`: the same within a text.
- Theorem {lit}`Tokenizer.Ready.next_push`: what comes next is read, and the walk goes on
  behind it.
- Theorem {lit}`Tokenizer.exists_ready_ofText`: a tokenizer is ready for its whole text.
-/

namespace Munch

/-- A use that succeeds goes on with its result where it left the tokenizer. -/
theorem Reading.run_bind {α β : Type} {x : Reading α} {f : α → Reading β} {t after : Tokenizer}
    {r : α} (h : x.run.run t = (.ok r, after)) : (x >>= f).run.run t = (f r).run.run after := by
  rw [ExceptT.run_bind, StateT.run_bind, h]
  rfl

namespace Tokenizer

/-! ## Looking ahead -/

section LookAhead

variable {t : Tokenizer} {pinned : Bool}

/-- A token that is known is still there. -/
theorem lookAhead_of_known (hupcoming : t.upcoming ≠ []) (pinned : Bool) :
    t.lookAhead pinned = (.ok true, t) := by
  rw [lookAhead, if_pos (by simpa using hupcoming)]

variable (hupcoming : t.upcoming = [])
include hupcoming

/-- Where nothing comes, there is no token. -/
theorem lookAhead_nil (hinput : t.input = []) : t.lookAhead pinned = (.ok false, t) := by
  rw [lookAhead, if_neg (by simp [hupcoming])]
  split <;> simp_all

/-- The match of a scan is cut off, and its token is dropped or comes next.  One without
characters is not dropped. -/
theorem lookAhead_matched {c : Char} {rest : List CharEvent} (hinput : t.input = .char c :: rest)
    {best : Option Match} (hscan : scan t.automaton t.input = .matched best) :
    t.lookAhead pinned =
      if t.skipId = some (best.getD unmatched).id then
        if 0 < (best.getD unmatched).length then
          (t.cut (best.getD unmatched)).2.lookAhead pinned
        else (.ok false, t)
      else
        (.ok true,
          (t.cut (best.getD unmatched)).2.push pinned (t.cut (best.getD unmatched)).1) := by
  rw [lookAhead, if_neg (by simp [hupcoming])]
  split
  · simp_all
  · simp_all
  · simp_all
  · rw [hscan]
    rfl

end LookAhead

/-! ## Walks -/

/-- Walking over the next items gives some tokens and then ends for good. -/
inductive Walks : Tokenizer → List Token → Prop where
  | done {t after : Tokenizer} (hnext : t.next = (none, after))
      (hafter : after.next = (none, after)) : Walks t []
  | step {t after : Tokenizer} {token : Token} {tokens : List Token}
      (hnext : t.next = (some (.ok token), after)) (hrest : Walks after tokens) :
      Walks t (token :: tokens)

/-- A tokenizer has one walk only. -/
theorem Walks.unique {t : Tokenizer} {tokens others : List Token} (hwalks : t.Walks tokens)
    (hothers : t.Walks others) : tokens = others := by
  induction hwalks generalizing others with
  | done hdone _ =>
    cases hothers with
    | done _ _ => rfl
    | step hstep _ =>
      rw [hdone] at hstep
      cases hstep
  | step hstep _ ih =>
    cases hothers with
    | done hdone _ =>
      rw [hdone] at hstep
      cases hstep
    | step hstep' hrest =>
      rw [hstep] at hstep'
      cases hstep'
      rw [ih hrest]

/-- A tokenizer between two items, with a text still to be read. -/
structure Ready (a : Automaton) (skipId : Option Int) (t : Tokenizer) (s : List Char) : Prop where
  automaton_eq : t.automaton = a
  acceptUnknown_eq : t.acceptUnknown = true
  skipId_eq : t.skipId = skipId
  input_eq : t.input = s.map CharEvent.char
  upcoming_eq : t.upcoming = []

variable {a : Automaton} {skipId : Option Int} {t after : Tokenizer} {c : Char} {s : List Char}

/-- Only what looking ahead does matters to a walk. -/
theorem Walks.of_lookAhead {tokens : List Token}
    (hlook : t.lookAhead false = after.lookAhead false) (hwalks : after.Walks tokens) :
    t.Walks tokens := by
  have hnext : t.next = after.next := by
    unfold next
    rw [hlook]
  cases hwalks with
  | done hdone hafter => exact Walks.done (hnext.trans hdone) hafter
  | step hstep hrest => exact Walks.step (hnext.trans hstep) hrest

/-- At the end of the text a walk ends. -/
theorem Ready.next_nil (hready : Ready a skipId t []) : t.next = (none, t) := by
  unfold next
  rw [lookAhead_nil hready.upcoming_eq hready.input_eq]

/-- Within a text, looking ahead cuts off the match of a scan, which is dropped or comes
next. -/
theorem Ready.lookAhead_cons (hready : Ready a skipId t (c :: s)) {best : Option Match}
    (hscan : scan a ((c :: s).map CharEvent.char) = .matched best)
    (hlength : 0 < (best.getD unmatched).length) :
    t.lookAhead false =
      if skipId = some (best.getD unmatched).id then
        (t.cut (best.getD unmatched)).2.lookAhead false
      else
        (.ok true,
          (t.cut (best.getD unmatched)).2.push false (t.cut (best.getD unmatched)).1) := by
  have hmatched : scan t.automaton t.input = .matched best := by
    rw [hready.automaton_eq, hready.input_eq, hscan]
  rw [lookAhead_matched hready.upcoming_eq hready.input_eq hmatched, if_pos hlength,
    hready.skipId_eq]

/-- Cutting off a match leaves the rest of the text. -/
theorem Ready.cut (hready : Ready a skipId t s) (found : Match) :
    Ready a skipId (t.cut found).2 (s.drop found.length) where
  automaton_eq := hready.automaton_eq
  acceptUnknown_eq := hready.acceptUnknown_eq
  skipId_eq := hready.skipId_eq
  input_eq := by rw [input_cut, hready.input_eq, List.map_drop]
  upcoming_eq := hready.upcoming_eq

/-- The token of a match has the characters that the match took. -/
theorem Ready.text_cut (hready : Ready a skipId t s) (found : Match) :
    (t.cut found).1.text = String.ofList (s.take found.length) := by
  have hchars : (t.input.take found.length).filterMap CharEvent.char? = s.take found.length := by
    rw [hready.input_eq, ← List.map_take, List.filterMap_map]
    exact List.filterMap_some
  rw [← hchars]
  rfl

/-- A known token is read, also one that no definition matches if such are accepted. -/
theorem run_read {token : Token} {rest : List Token} (hupcoming : t.upcoming = token :: rest)
    (haccept : t.acceptUnknown = true) : Reading.read.run.run t = (.ok token, t.stepForward) := by
  have hknown : t.upcoming ≠ [] := by
    rw [hupcoming]
    exact List.cons_ne_nil token rest
  have hlook : (Reading.lookAhead false).run.run t = (.ok true, t) :=
    lookAhead_of_known hknown false
  have hget : (get : Reading Tokenizer).run.run t = (.ok t, t) := rfl
  rw [Reading.read, Reading.readMatching, Reading.run_bind hlook, Reading.run_bind hget]
  simp only [hupcoming, haccept, Bool.not_true, Bool.and_false, Selector.matchesToken_any]
  rfl

/-- A token that comes next is read, and the walk goes on behind it. -/
theorem Ready.next_push (hready : Ready a skipId after s) {token : Token}
    (hlook : t.lookAhead false = (.ok true, after.push false token)) :
    ∃ rest, t.next = (some (.ok token), rest) ∧ Ready a skipId rest s := by
  have hupcoming : (after.push false token).upcoming = [token] := rfl
  have hread := run_read hupcoming hready.acceptUnknown_eq
  refine ⟨(after.push false token).stepForward, ?_, ?_⟩
  · unfold next
    rw [hlook]
    simp only [hread]
  · exact
      { automaton_eq := hready.automaton_eq
        acceptUnknown_eq := hready.acceptUnknown_eq
        skipId_eq := hready.skipId_eq
        input_eq := hready.input_eq
        upcoming_eq := rfl }

/-- A tokenizer for a text is ready for all of it, also when it drops the token of a
definition. -/
theorem exists_ready_ofText {a : Automaton} {skip : Option String}
    {skipId : Option Int} (hskip : skip.map a.tokenId? = skipId.map some) (history chunk : Nat)
    (text : String) :
    ∃ t, ofText a ⟨skip, history, true, chunk⟩ text = .ok t ∧
      Ready a skipId t text.toList := by
  have hready : ∀ id : Option Int, Ready a id
      { automaton := a
        history := history
        acceptUnknown := true
        skipId := id
        input := CharEvent.ofSource (max chunk 4) [.bytes text.toUTF8.data.toList]
        position := Position.first
        past := []
        upcoming := [] } text.toList := fun id =>
    { automaton_eq := rfl
      acceptUnknown_eq := rfl
      skipId_eq := rfl
      input_eq := CharEvent.ofSource_toUTF8 (max chunk 4) text
      upcoming_eq := rfl }
  cases skip with
  | none =>
    cases skipId with
    | none => exact ⟨_, rfl, hready none⟩
    | some id => cases hskip
  | some name =>
    cases skipId with
    | none => cases hskip
    | some id =>
      have hname : a.tokenId? name = some id := Option.some.inj hskip
      unfold ofText create
      simp only [hname]
      exact ⟨_, rfl, hready (some id)⟩

end Tokenizer
end Munch

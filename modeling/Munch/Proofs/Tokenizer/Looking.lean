import Mathlib.Data.List.Basic
import Munch.Proofs.Tokenizer.Stream

/-!
# Looking ahead

Whatever a source does, the characters that it delivers are cut into the same tokens: failures
on the way take nothing away, and where the input stops being UTF-8 the tokens end whose end
cannot be told any more.  Looking ahead finds the first of these tokens and keeps all of them.

Main results:

- Theorem {lit}`Automaton.scan_cases`: how a scan of what arrives ends.
- Theorem {lit}`Tokenizer.looked_lookAhead`: what looking ahead can do to a tokenizer.
- Theorem {lit}`Tokenizer.finds_lookAhead`: looking ahead keeps the tokens to come.
-/

namespace Munch

/-! ## Scans of what arrives -/

namespace Automaton

variable {a : Automaton} {s : List Char}

theorem walk_append (a : Automaton) (i : Nat) (s rest : List Char) :
    a.walk i (s ++ rest) = (a.walk i s).bind fun j => a.walk j rest := by
  induction s generalizing i with
  | nil => rfl
  | cons c s ih =>
    rw [List.cons_append, walk_cons, walk_cons, Option.bind_assoc]
    exact congrArg _ (funext ih)

/-- A walk that goes through to the end of its text goes on with what follows. -/
theorem scanFrom_of_walk {i j : Nat} (hwalk : a.walk i s = some j) (offset : Nat)
    (best : Option Match) :
    ∃ best', ∀ rest, scanFrom a i offset best (s.map CharEvent.char ++ rest) =
      scanFrom a j (offset + s.length) best' rest := by
  induction s generalizing i offset best with
  | nil =>
    cases hwalk
    exact ⟨best, fun _ => rfl⟩
  | cons c s ih =>
    rw [walk_cons, Option.bind_eq_some_iff] at hwalk
    obtain ⟨next, hstep, hrest⟩ := hwalk
    obtain ⟨best', hbest⟩ := ih hrest (offset + 1) (bestAt a i offset best)
    refine ⟨best', fun rest => ?_⟩
    simp only [List.map_cons, List.cons_append, scanFrom, hstep, hbest, List.length_cons,
      Nat.add_assoc, Nat.add_comm 1]

/-- Where a walk ends within a text, what follows the text does not matter. -/
theorem scanFrom_of_walk_eq_none {i : Nat} (hwalk : a.walk i s = none) (offset : Nat)
    (best : Option Match) (rest : List CharEvent) :
    scanFrom a i offset best (s.map CharEvent.char ++ rest) =
      scanFrom a i offset best (s.map CharEvent.char) := by
  induction s generalizing i offset best with
  | nil => cases hwalk
  | cons c s ih =>
    rw [walk_cons] at hwalk
    cases hstep : a.step i c with
    | none => simp only [List.map_cons, List.cons_append, scanFrom, hstep]
    | some next =>
      rw [hstep] at hwalk
      simp only [List.map_cons, List.cons_append, scanFrom, hstep]
      exact ih hwalk (offset + 1) (bestAt a i offset best)

/-- How a scan of what arrives ends: with the longest match of the text, or because a failure or
a place from which the input is not UTF-8 comes before it can tell. -/
inductive ScanEnds (a : Automaton) (events : List CharEvent) : ScanResult → Prop where
  | matched {found : Match}
      (hfound : (a.longestMatch (CharEvent.text events)).getD Tokenizer.unmatched = found)
      (hchars : events.take found.length =
        ((CharEvent.text events).take found.length).map CharEvent.char)
      (htold : (CharEvent.fault? events).isNone = true ∨
        a.walk a.start (CharEvent.text events) = none) :
      ScanEnds a events (.matched (a.longestMatch (CharEvent.text events)))
  | failure {offset : Nat} {message : String}
      (htext : CharEvent.text (events.eraseIdx offset) = CharEvent.text events)
      (hfault : CharEvent.fault? (events.eraseIdx offset) = CharEvent.fault? events)
      (hmessages : CharEvent.messages events =
        message :: CharEvent.messages (events.eraseIdx offset)) :
      ScanEnds a events (.failure offset message)
  | invalid {offset : Nat} (hfault : CharEvent.fault? events = some offset)
      (hwalk : (a.walk a.start (CharEvent.text events)).isSome = true) :
      ScanEnds a events (.invalid offset)

theorem scan_cases (hstart : a.accepting a.start = none) (events : List CharEvent) :
    ScanEnds a events (scan a events) := by
  obtain ⟨cs, tail, rfl, htail⟩ := CharEvent.exists_eq_map_append events
  cases hwalk : a.walk a.start cs with
  | none =>
    have hne : cs ≠ [] := by
      rintro rfl
      cases hwalk
    -- What is behind the end of the walk does not matter, so it can be the rest of the text.
    have hscan : ∀ rest, scan a (cs.map CharEvent.char ++ rest) = .matched (a.longestMatch cs) := by
      intro rest
      rw [scan, scanFrom_of_walk_eq_none hwalk]
      exact scan_eq_longestMatch hstart cs
    have hlongest : a.longestMatch (cs ++ CharEvent.text tail) = a.longestMatch cs := by
      have hwhole := hscan ((CharEvent.text tail).map CharEvent.char)
      rwa [← List.map_append, scan_eq_longestMatch hstart, ScanResult.matched.injEq] at hwhole
    have hle := (a.bounds_longestMatch hne).2
    rw [hscan, ← hlongest, ← CharEvent.text_map_append]
    refine ScanEnds.matched rfl ?_ (Or.inr ?_)
    · rw [CharEvent.text_map_append, hlongest, List.take_append_of_le_length (by simpa using hle),
        List.take_append_of_le_length hle, List.map_take]
    · rw [CharEvent.text_map_append, walk_append, hwalk]
      rfl
  | some j =>
    obtain ⟨best, hthrough⟩ := scanFrom_of_walk hwalk 0 none
    rcases htail with rfl | ⟨message, rest, rfl⟩ | ⟨offset, rest, rfl⟩
    · rw [List.append_nil, scan_eq_longestMatch hstart]
      have htext : CharEvent.text (cs.map CharEvent.char) = cs := CharEvent.text_map cs
      have hended : (CharEvent.fault? (cs.map CharEvent.char)).isNone = true := by
        rw [CharEvent.fault?_map]
        rfl
      rw [← congrArg a.longestMatch htext]
      exact ScanEnds.matched rfl (by rw [htext, List.map_take]) (Or.inl hended)
    · rw [scan, hthrough, scanFrom, Nat.zero_add]
      have herase : (cs.map CharEvent.char ++ .failure message :: rest).eraseIdx cs.length =
          cs.map CharEvent.char ++ rest := by
        rw [List.eraseIdx_append_of_length_le (by simp)]
        simp
      refine ScanEnds.failure ?_ ?_ ?_
      · rw [herase, CharEvent.text_map_append, CharEvent.text_map_append]
        rfl
      · rw [herase, CharEvent.fault?_map_append, CharEvent.fault?_map_append]
        rfl
      · rw [herase, CharEvent.messages_map_append, CharEvent.messages_map_append]
        rfl
    · rw [scan, hthrough, scanFrom]
      refine ScanEnds.invalid ?_ ?_
      · rw [CharEvent.fault?_map_append]
        rfl
      · rw [CharEvent.text_map_append, CharEvent.text, List.append_nil, hwalk]
        rfl

/-! ## Tokens of what arrives -/

/-- The tokens of a text that starts at some place.  If it does not end there, a token counts only
if its end can be told: the automaton must not go on to the end of what is there of the text. -/
def certain (a : Automaton) (ends : Bool) (p : Position) : List Char → List Token
  | [] => []
  | c :: s =>
    if !ends && (a.walk a.start (c :: s)).isSome then []
    else
      let found := (a.longestMatch (c :: s)).getD Tokenizer.unmatched
      let text := c :: s.take (found.length - 1)
      ⟨found.id, String.ofList text, p⟩ ::
        certain a ends (p.advance text) (s.drop (found.length - 1))
termination_by s => s.length
decreasing_by
  simp only [List.length_drop, List.length_cons]
  omega

/-- The tokens of what arrives at some place, without those that are dropped. -/
def arriving (a : Automaton) (skipId : Option Int) (p : Position) (events : List CharEvent) :
    List Token :=
  (a.certain (CharEvent.fault? events).isNone p (CharEvent.text events)).filter
    fun token => skipId != some token.id

/-- Of a text that ends every token counts. -/
theorem certain_true (a : Automaton) (p : Position) (s : List Char) :
    a.certain true p s = a.munch p s := by
  fun_induction munch a p s with
  | case1 p => rw [certain]
  | case2 p c s found text ih =>
    rw [certain, if_neg (by simp)]
    exact congrArg _ ih

theorem arriving_of_text_eq_nil {skipId : Option Int} {p : Position} {events : List CharEvent}
    (htext : CharEvent.text events = []) : a.arriving skipId p events = [] := by
  rw [arriving, htext, certain, List.filter_nil]

/-- Where nothing is wrong, the tokens of the text arrive. -/
theorem arriving_of_fault {skipId : Option Int} {p : Position} {events : List CharEvent}
    (hfault : CharEvent.fault? events = none) :
    a.arriving skipId p events = a.stream skipId p (CharEvent.text events) := by
  rw [arriving, hfault, stream, Option.isNone_none, certain_true]

/-- If the end of the first match cannot be told, no tokens arrive. -/
theorem arriving_of_walk {skipId : Option Int} {p : Position} {events : List CharEvent}
    {offset : Nat} (hfault : CharEvent.fault? events = some offset)
    (hwalk : (a.walk a.start (CharEvent.text events)).isSome = true) :
    a.arriving skipId p events = [] := by
  cases htext : CharEvent.text events with
  | nil => exact arriving_of_text_eq_nil htext
  | cons c s =>
    rw [htext] at hwalk
    rw [arriving, htext, hfault, certain, if_pos (by rw [hwalk]; rfl),
      List.filter_nil]

/-- The first token that arrives is that of the match in front, unless it is dropped, and the
others arrive behind the match. -/
theorem arriving_eq {skipId : Option Int} {p : Position} {events : List CharEvent} {found : Match}
    (hne : CharEvent.text events ≠ [])
    (htold : (CharEvent.fault? events).isNone = true ∨
      a.walk a.start (CharEvent.text events) = none)
    (hfound : (a.longestMatch (CharEvent.text events)).getD Tokenizer.unmatched = found)
    (hchars : events.take found.length =
      ((CharEvent.text events).take found.length).map CharEvent.char) :
    a.arriving skipId p events =
      if skipId = some found.id then
        a.arriving skipId (p.advance ((CharEvent.text events).take found.length))
          (events.drop found.length)
      else
        ⟨found.id, String.ofList ((CharEvent.text events).take found.length), p⟩ ::
          a.arriving skipId (p.advance ((CharEvent.text events).take found.length))
            (events.drop found.length) := by
  obtain ⟨hpos, -⟩ := a.bounds_longestMatch hne
  rw [hfound] at hpos
  have hfault := CharEvent.fault?_drop hchars
  have hdrop := CharEvent.text_drop hchars
  obtain ⟨c, s, hcons⟩ := List.exists_cons_of_ne_nil hne
  obtain ⟨n, hn⟩ : ∃ n, found.length = n + 1 := ⟨found.length - 1, by omega⟩
  have hgoes : ¬(!(CharEvent.fault? events).isNone && (a.walk a.start (c :: s)).isSome) = true := by
    rw [hcons] at htold
    rcases htold with htold | htold <;> simp [htold]
  simp only [arriving, hfault, hdrop]
  rw [hcons] at hfound ⊢
  rw [certain, if_neg hgoes]
  simp only [hfound, hn, Nat.add_sub_cancel, List.take_succ_cons, List.drop_succ_cons]
  split
  · rename_i hskip
    rw [List.filter_cons_of_neg (by simp [hskip])]
  · rename_i hskip
    rw [List.filter_cons_of_pos (by simp [hskip])]

end Automaton

namespace Tokenizer

variable {t after : Tokenizer} {pinned : Bool} {token : Token}

/-! ## Looking ahead -/

/-- What looking ahead can do: no token is added, or one is when none was known. -/
inductive Looked (pinned : Bool) (t : Tokenizer) : Tokenizer → Prop where
  | stayed (input : List CharEvent) (position : Position) :
      Looked pinned t { t with input := input, position := position }
  | pushed (input : List CharEvent) (position : Position) (token : Token)
      (hupcoming : t.upcoming = []) :
      Looked pinned t ({ t with input := input, position := position }.push pinned token)

theorem Looked.of_cut {found : Match} (hlooked : Looked pinned (t.cut found).2 after) :
    Looked pinned t after := by
  cases hlooked with
  | stayed input position => exact Looked.stayed input position
  | pushed input position token hupcoming => exact Looked.pushed input position token hupcoming

theorem looked_lookAhead (pinned : Bool) (t : Tokenizer) :
    Looked pinned t (t.lookAhead pinned).2 := by
  fun_induction lookAhead pinned t with
  | case1 t | case2 t | case4 t | case6 t | case8 t => exact Looked.stayed t.input t.position
  | case3 t hupcoming message rest => exact Looked.stayed rest t.position
  | case5 t => exact Looked.stayed _ t.position
  | case7 t hupcoming c rest hinput best hscan found next hskip hlength ih => exact ih.of_cut
  | case9 t hupcoming => exact Looked.pushed _ _ _ (by simpa using hupcoming)

/-- While tokens are pinned, none of those that were read is given up. -/
theorem Looked.past_eq (hlooked : Looked true t after) : after.past = t.past := by
  cases hlooked with
  | stayed _ _ => rfl
  | pushed _ _ _ _ => rfl

/-! ## The tokens that come next -/

/-- The tokens that come next: those that are known and those that arrive. -/
def coming (t : Tokenizer) : List Token :=
  t.upcoming ++ t.automaton.arriving t.skipId t.position t.input

/-- Looking ahead and moving over tokens change neither how a tokenizer reads nor where its input
stops being UTF-8. -/
structure SameSource (t after : Tokenizer) : Prop where
  automaton_eq : after.automaton = t.automaton
  acceptUnknown_eq : after.acceptUnknown = t.acceptUnknown
  skipId_eq : after.skipId = t.skipId
  fault_eq : CharEvent.fault? after.input = CharEvent.fault? t.input

theorem SameSource.refl (t : Tokenizer) : SameSource t t := ⟨rfl, rfl, rfl, rfl⟩

theorem SameSource.trans {middle : Tokenizer} (hfirst : SameSource t middle)
    (hsecond : SameSource middle after) : SameSource t after where
  automaton_eq := hsecond.automaton_eq.trans hfirst.automaton_eq
  acceptUnknown_eq := hsecond.acceptUnknown_eq.trans hfirst.acceptUnknown_eq
  skipId_eq := hsecond.skipId_eq.trans hfirst.skipId_eq
  fault_eq := hsecond.fault_eq.trans hfirst.fault_eq

theorem SameSource.accepting_start (hsame : SameSource t after)
    (hstart : t.automaton.accepting t.automaton.start = none) :
    after.automaton.accepting after.automaton.start = none := by
  rw [hsame.automaton_eq]
  exact hstart

/-- How looking ahead ends: with the next token known, if there is one; with a failure of the
source, after which the same tokens come; or in front of the place from which the input is not
UTF-8. -/
inductive Finds (t : Tokenizer) : Except TokenizerError Bool × Tokenizer → Prop where
  | known {after : Tokenizer} (hsame : SameSource t after) (hcoming : after.coming = t.coming)
      (hmessages : CharEvent.messages after.input = CharEvent.messages t.input)
      (hhead : after.upcoming.head? = t.coming.head?)
      (hend : t.coming = [] → CharEvent.fault? t.input = none) :
      Finds t (.ok (!t.coming.isEmpty), after)
  | failed {after : Tokenizer} {message : String} (hsame : SameSource t after)
      (hcoming : after.coming = t.coming)
      (hmessages : CharEvent.messages t.input = message :: CharEvent.messages after.input) :
      Finds t (.error (.source message), after)
  | refused {after : Tokenizer} {offset : Nat} (hsame : SameSource t after)
      (hcoming : after.coming = t.coming)
      (hmessages : CharEvent.messages after.input = CharEvent.messages t.input)
      (hnone : t.coming = []) (hfault : CharEvent.fault? t.input = some offset) :
      Finds t (.error (.invalidUtf8 offset), after)

/-- Cutting off a match takes its characters from what arrives. -/
theorem cut_eq {found : Match}
    (hchars : t.input.take found.length =
      ((CharEvent.text t.input).take found.length).map CharEvent.char) :
    t.cut found =
      (⟨found.id, String.ofList ((CharEvent.text t.input).take found.length), t.position⟩,
        { t with
          input := t.input.drop found.length
          position := t.position.advance ((CharEvent.text t.input).take found.length) }) := by
  have htext : (t.input.take found.length).filterMap CharEvent.char? =
      (CharEvent.text t.input).take found.length := by
    rw [hchars, List.filterMap_map]
    exact List.filterMap_some
  rw [cut, htext]

/-- Where no token is known, the match that a scan finds has characters, and cutting it off
leaves the tokens behind it. -/
theorem coming_cut (hstart : t.automaton.accepting t.automaton.start = none)
    (hunknown : t.upcoming = []) (hne : CharEvent.text t.input ≠ []) {best : Option Match}
    (hscan : scan t.automaton t.input = .matched best) {found : Match}
    (hbest : best.getD unmatched = found) :
    0 < found.length ∧ SameSource t (t.cut found).2 ∧
      CharEvent.messages (t.cut found).2.input = CharEvent.messages t.input ∧
        t.coming =
          if t.skipId = some (t.cut found).1.id then (t.cut found).2.coming
          else (t.cut found).1 :: (t.cut found).2.coming := by
  have hends := Automaton.scan_cases hstart t.input
  rw [hscan] at hends
  cases hends with
  | matched hfound hchars htold =>
    rw [hbest] at hfound
    subst hfound
    refine ⟨hbest ▸ (t.automaton.bounds_longestMatch hne).1,
      ⟨rfl, rfl, rfl, CharEvent.fault?_drop hchars⟩, CharEvent.messages_drop hchars, ?_⟩
    rw [cut_eq hchars, coming, hunknown, List.nil_append,
      Automaton.arriving_eq hne htold hbest hchars]
    simp only [coming, List.nil_append]

/-- In front of a character there is text. -/
theorem text_ne_nil {c : Char} {rest : List CharEvent} (hinput : t.input = .char c :: rest) :
    CharEvent.text t.input ≠ [] := by
  rw [hinput]
  exact List.cons_ne_nil _ _

/-- Looking ahead where the same tokens come is looking ahead. -/
theorem Finds.of_same {result : Except TokenizerError Bool × Tokenizer} (hsame : SameSource t after)
    (hmessages : CharEvent.messages after.input = CharEvent.messages t.input)
    (hcoming : after.coming = t.coming) (hfinds : Finds after result) : Finds t result := by
  cases hfinds with
  | known hthen hkept hleft hhead hend =>
    rw [hcoming] at hkept hhead hend ⊢
    exact Finds.known (hsame.trans hthen) hkept (hleft.trans hmessages) hhead fun hnone =>
      hsame.fault_eq ▸ hend hnone
  | failed hthen hkept hleft =>
    exact Finds.failed (hsame.trans hthen) (hkept.trans hcoming) (hmessages ▸ hleft)
  | refused hthen hkept hleft hnone hfault =>
    exact Finds.refused (hsame.trans hthen) (hkept.trans hcoming) (hleft.trans hmessages)
      (hcoming ▸ hnone) (hsame.fault_eq ▸ hfault)

/-- Looking ahead keeps the tokens to come. -/
theorem finds_lookAhead (hstart : t.automaton.accepting t.automaton.start = none)
    (pinned : Bool) : Finds t (t.lookAhead pinned) := by
  fun_induction lookAhead pinned t with
  | case1 t hupcoming =>
    have hne : t.upcoming ≠ [] := by simpa using hupcoming
    obtain ⟨token, rest, hcons⟩ := List.exists_cons_of_ne_nil hne
    have hknown := Finds.known (t := t) (SameSource.refl t) rfl rfl
      (by rw [coming, hcons]; rfl) (by rw [coming, hcons]; exact fun h => nomatch h)
    have hsome : (!t.coming.isEmpty) = true := by rw [coming, hcons]; rfl
    rwa [hsome] at hknown
  | case2 t hupcoming hinput =>
    have hunknown : t.upcoming = [] := by simpa using hupcoming
    have hnone : t.coming = [] := by
      rw [coming, hunknown, hinput, Automaton.arriving_of_text_eq_nil rfl]
      rfl
    have hknown := Finds.known (t := t) (SameSource.refl t) rfl rfl (by rw [hnone, hunknown])
      (by rw [hinput]; exact fun _ => rfl)
    rwa [hnone] at hknown
  | case3 t hupcoming message rest hinput =>
    refine Finds.failed ⟨rfl, rfl, rfl, ?_⟩ ?_ ?_
    · rw [hinput]
      rfl
    · rw [coming, coming, hinput]
      rfl
    · rw [hinput]
      rfl
  | case4 t hupcoming offset rest hinput =>
    have hunknown : t.upcoming = [] := by simpa using hupcoming
    refine Finds.refused (SameSource.refl t) rfl rfl ?_ ?_
    · rw [coming, hunknown, hinput, Automaton.arriving_of_text_eq_nil rfl]
      rfl
    · rw [hinput]
      rfl
  | case5 t hupcoming c rest hinput offset message hscan =>
    have hends := Automaton.scan_cases hstart t.input
    rw [hscan] at hends
    cases hends with
    | failure htext hfault hmessages =>
      refine Finds.failed ⟨rfl, rfl, rfl, hfault⟩ ?_ hmessages
      rw [coming, coming, Automaton.arriving, Automaton.arriving, htext, hfault]
  | case6 t hupcoming c rest hinput offset hscan =>
    have hunknown : t.upcoming = [] := by simpa using hupcoming
    have hends := Automaton.scan_cases hstart t.input
    rw [hscan] at hends
    cases hends with
    | invalid hfault hwalk =>
      refine Finds.refused (SameSource.refl t) rfl rfl ?_ hfault
      rw [coming, hunknown, Automaton.arriving_of_walk hfault hwalk]
      rfl
  | case7 t hupcoming c rest hinput best hscan found next hskip hlength ih =>
    obtain ⟨-, hsame, hmessages, hcoming⟩ :=
      coming_cut hstart (by simpa using hupcoming) (text_ne_nil hinput) hscan (rfl : _ = found)
    rw [if_pos hskip] at hcoming
    exact (ih hstart).of_same hsame hmessages hcoming.symm
  | case8 t hupcoming c rest hinput best hscan found next hskip hlength =>
    obtain ⟨hpos, -⟩ := coming_cut hstart (by simpa using hupcoming) (text_ne_nil hinput) hscan rfl
    exact absurd hpos hlength
  | case9 t hupcoming c rest hinput best hscan found next hskip =>
    have hunknown : t.upcoming = [] := by simpa using hupcoming
    obtain ⟨-, hsame, hmessages, hcoming⟩ :=
      coming_cut hstart hunknown (text_ne_nil hinput) hscan (rfl : _ = found)
    rw [if_neg hskip] at hcoming
    have hpushed : (next.2.push pinned next.1).coming = t.coming := by
      rw [hcoming, coming, coming]
      change [next.1] ++ _ = next.1 :: (t.upcoming ++ _)
      rw [hunknown]
      rfl
    have hafter : SameSource t (next.2.push pinned next.1) :=
      ⟨hsame.automaton_eq, hsame.acceptUnknown_eq, hsame.skipId_eq, hsame.fault_eq⟩
    have hknown := Finds.known hafter hpushed hmessages
      (by rw [hcoming]; rfl) (by rw [hcoming]; exact fun h => nomatch h)
    have hsome : (!t.coming.isEmpty) = true := by rw [hcoming]; rfl
    rwa [hsome] at hknown

end Tokenizer
end Munch

import Munch.Proofs.Tokenizer.CharSource
import Munch.Proofs.Tokenizer.Places
import Munch.Tokenizer.Windowed

/-!
# Tokenizers over a window and over events

A tokenizer over a window has places where a tokenizer over events has the events themselves: the
characters of the window from the place of the next scan on, and behind them what is still to
come, are the events that have not been cut into tokens.  Whatever is done with the two, they give
the same answers.

Main results:

- Theorem {lit}`CharSource.Brings.get`: a window and the events behind some characters.
- Theorem {lit}`WindowTokenizer.Mirrors.fill`: filling over a window is looking ahead over events.
- Theorem {lit}`WindowTokenizer.answers_create`: the two give the same answers to whatever they are
  asked.
-/

namespace Munch

/-! ## Characters in front of events -/

namespace CharEvent

variable {first s : List Char} {rest events : List CharEvent}

/-- Of two lists of characters in front of the same events one is the beginning of the other. -/
theorem chars_append_cases (h : first.map char ++ rest = s.map char ++ events) :
    (∃ more, s = first ++ more ∧ rest = more.map char ++ events) ∨
      ∃ more, first = s ++ more ∧ events = more.map char ++ rest := by
  induction first generalizing s with
  | nil => exact Or.inl ⟨s, rfl, h⟩
  | cons c first ih =>
    cases s with
    | nil => exact Or.inr ⟨c :: first, rfl, h.symm⟩
    | cons d s =>
      simp only [List.map_cons, List.cons_append, List.cons.injEq, char.injEq] at h
      obtain ⟨rfl, h⟩ := h
      rcases ih h with ⟨more, rfl, hrest⟩ | ⟨more, rfl, hevents⟩
      · exact Or.inl ⟨more, rfl, hrest⟩
      · exact Or.inr ⟨more, rfl, hevents⟩

/-- Where no more characters come, characters in front of events come to an end. -/
theorem chars_append_eq (h : first.map char ++ rest = s.map char ++ events)
    (hlength : s.length ≤ first.length) (hevents : ∀ c tail, events ≠ char c :: tail) :
    first = s ∧ rest = events := by
  rcases chars_append_cases h with ⟨more, rfl, hrest⟩ | ⟨more, rfl, hbehind⟩
  · rw [List.length_append] at hlength
    obtain rfl : more = [] := List.eq_nil_of_length_eq_zero (by omega)
    exact ⟨(List.append_nil first).symm, hrest⟩
  · cases more with
    | nil => exact ⟨List.append_nil s, hbehind.symm⟩
    | cons c more => exact absurd hbehind (hevents c _)

end CharEvent

/-! ## What a window brings -/

namespace CharSource

variable {w : CharSource} {pos : Nat} {first : List Char} {rest events : List CharEvent}

/-- From a place on a window brings some events: characters that were decoded, and what is still to
come. -/
def Brings (w : CharSource) (pos : Nat) (events : List CharEvent) : Prop :=
  ∃ base s tail, w.Holds base s tail ∧ base ≤ pos ∧ pos ≤ s.length ∧
    events = (s.drop pos).map CharEvent.char ++ tail

/-- A window starts in front of what arrives. -/
theorem brings_create (chunk : Nat) (arrivals : List Arrival) :
    (create chunk arrivals).Brings 0 (CharEvent.ofSource (max chunk 4) arrivals) :=
  ⟨0, [], _, holds_create chunk arrivals, Nat.le_refl 0, Nat.le_refl 0, rfl⟩

/-- How asking for the character behind some others ends, by what comes behind them.  A failure
comes once; octets that are wrong stay where they are. -/
inductive Meets (pos : Nat) (first : List Char) :
    List CharEvent → Except TokenizerError (Option Char) × CharSource → Prop where
  | char {after : CharSource} {c : Char} {tail : List CharEvent}
      (hafter : after.Brings pos (first.map CharEvent.char ++ .char c :: tail)) :
      Meets pos first (.char c :: tail) (.ok (some c), after)
  | ended {after : CharSource} (hafter : after.Brings pos (first.map CharEvent.char ++ [])) :
      Meets pos first [] (.ok none, after)
  | failed {after : CharSource} {message : String} {tail : List CharEvent}
      (hafter : after.Brings pos (first.map CharEvent.char ++ tail)) :
      Meets pos first (.failure message :: tail) (.error (.source message), after)
  | refused {after : CharSource} {offset : Nat} {tail : List CharEvent}
      (hafter : after.Brings pos (first.map CharEvent.char ++ .invalid offset :: tail)) :
      Meets pos first (.invalid offset :: tail) (.error (.invalidUtf8 offset), after)

/-- Asking for the character behind some others meets the event behind them. -/
theorem Brings.get (hbrings : w.Brings pos (first.map CharEvent.char ++ rest)) :
    Meets pos first rest (w.get (pos + first.length)) := by
  obtain ⟨base, s, tail, hholds, hbase, hpos, hevents⟩ := hbrings
  have hgets := hholds.gets (Nat.le_add_right_of_le hbase : base ≤ pos + first.length)
  -- What is decoded on the way comes behind what was decoded before.
  have hmore : ∀ (more : List Char) (events : List CharEvent),
      (s.drop pos).map CharEvent.char ++ (more.map CharEvent.char ++ events) =
        ((s ++ more).drop pos).map CharEvent.char ++ events := by
    intro more events
    rw [List.drop_append_of_le_length hpos, List.map_append, List.append_assoc]
  have hplace : ∀ more : List Char, pos ≤ (s ++ more).length := by
    intro more
    rw [List.length_append]
    exact Nat.le_add_right_of_le hpos
  have hshort : ∀ more : List Char, (s ++ more).length ≤ pos + first.length →
      ((s ++ more).drop pos).length ≤ first.length := by
    intro more hlength
    rw [List.length_drop]
    omega
  generalize w.get (pos + first.length) = result at hgets
  cases hgets with
  | @found after more events c hafter hc =>
    rw [hmore] at hevents
    have hbrings : after.Brings pos (first.map CharEvent.char ++ rest) :=
      ⟨base, _, _, hafter, hbase, hplace more, hevents⟩
    rw [← List.getElem?_drop] at hc
    obtain ⟨hlt, -⟩ := List.getElem?_eq_some_iff.mp hc
    rcases CharEvent.chars_append_cases hevents with ⟨others, hchars, hrest⟩ | ⟨others, hchars, -⟩
    · rw [hchars, List.getElem?_append_right (Nat.le_refl _), Nat.sub_self] at hc
      obtain ⟨tail, rfl⟩ : ∃ tail, others = c :: tail := by
        cases others with
        | nil => cases hc
        | cons d tail =>
          cases hc
          exact ⟨tail, rfl⟩
      subst hrest
      exact Meets.char hbrings
    · rw [hchars, List.length_append] at hlt
      omega
  | @ended after more hafter hlength =>
    rw [hmore] at hevents
    obtain ⟨-, rfl⟩ := CharEvent.chars_append_eq hevents (hshort more hlength) nofun
    exact Meets.ended ⟨base, _, _, hafter, hbase, hplace more, hevents⟩
  | @failed after more tail message hafter hlength =>
    rw [hmore] at hevents
    obtain ⟨rfl, rfl⟩ := CharEvent.chars_append_eq hevents (hshort more hlength) nofun
    exact Meets.failed ⟨base, _, _, hafter, hbase, hplace more, rfl⟩
  | @refused after more offset hinvalid hafter hlength =>
    rw [hmore] at hevents
    obtain ⟨-, rfl⟩ := CharEvent.chars_append_eq hevents (hshort more hlength) nofun
    exact Meets.refused ⟨base, _, _, hafter, hbase, hplace more, hevents⟩

/-- Getting a character does not shorten the window. -/
theorem Brings.limit_le_get (hbrings : w.Brings pos events) (offset : Nat) :
    w.limit ≤ (w.get (pos + offset)).2.limit := by
  obtain ⟨base, s, tail, hholds, hbase, -, -⟩ := hbrings
  exact hholds.limit_le_get (Nat.le_add_right_of_le hbase)

/-- Asking for the first character meets the first event. -/
theorem Brings.get_first (hbrings : w.Brings pos events) : Meets pos [] events (w.get pos) := by
  have hfront : w.Brings pos (([] : List Char).map CharEvent.char ++ events) := hbrings
  exact hfront.get

/-- The text of decoded characters is that of the events in front, and the window brings the others
from the place behind it on. -/
theorem Brings.text (hbrings : w.Brings pos events) {length : Nat}
    (hlimit : pos + length ≤ w.limit) :
    ∃ s : List Char, s.length = length ∧ events.take length = s.map CharEvent.char ∧
      w.text pos length = String.ofList s ∧ w.Brings (pos + length) (events.drop length) := by
  obtain ⟨base, s, tail, hholds, hbase, hpos, rfl⟩ := hbrings
  rw [hholds.shown.limit_eq] at hlimit
  have hlength : length ≤ ((s.drop pos).map CharEvent.char).length := by
    rw [List.length_map, List.length_drop]
    omega
  refine ⟨(s.drop pos).take length, ?_, ?_, ?_, base, s, tail, hholds, ?_, hlimit, ?_⟩
  · rw [List.length_map] at hlength
    rw [List.length_take, Nat.min_eq_left hlength]
  · rw [List.take_append_of_le_length hlength, List.map_take]
  · rw [CharSource.text, hholds.shown.base_eq, hholds.shown.chars_eq, List.drop_drop,
      Nat.add_sub_cancel' hbase]
  · exact Nat.le_add_right_of_le hbase
  · rw [List.drop_append_of_le_length hlength, ← List.map_drop, List.drop_drop]

/-- What is given up is in front of the place. -/
theorem Brings.release (hbrings : w.Brings pos events) : (w.release pos).Brings pos events := by
  obtain ⟨base, s, tail, hholds, hbase, hpos, hevents⟩ := hbrings
  obtain ⟨base', hle, hreleased⟩ := hholds.release pos
  rw [Nat.max_eq_right hbase] at hle
  exact ⟨base', s, tail, hreleased, hle, hpos, hevents⟩

end CharSource

namespace WindowTokenizer

/-! ## Scanning -/

/-- How a scan of a window ends where a scan of the events that it brings has some result.  The
characters of a match have been decoded. -/
inductive Scans (pos : Nat) (events : List CharEvent) :
    ScanResult → Except TokenizerError (Option Match) × CharSource → Prop where
  | matched {after : CharSource} {best : Option Match} (hafter : after.Brings pos events)
      (hbest : pos + (best.getD Tokenizer.unmatched).length ≤ after.limit) :
      Scans pos events (.matched best) (.ok best, after)
  | failure {after : CharSource} {offset : Nat} {message : String}
      (hafter : after.Brings pos (events.eraseIdx offset)) :
      Scans pos events (.failure offset message) (.error (.source message), after)
  | invalid {after : CharSource} {offset : Nat} (hafter : after.Brings pos events) :
      Scans pos events (.invalid offset) (.error (.invalidUtf8 offset), after)

/-- A scan without the reasons why it ends. -/
theorem scanFrom_eq (a : Automaton) (pos : Nat) (source : CharSource) (state offset : Nat)
    (best : Option Match) :
    scanFrom a pos source state offset best =
      match source.get (pos + offset) with
      | (.error e, after) => (.error e, after)
      | (.ok none, after) => (.ok (bestAt a state offset best), after)
      | (.ok (some c), after) =>
        match a.step state c with
        | none => (.ok (bestAt a state offset best), after)
        | some next => scanFrom a pos after next (offset + 1) (bestAt a state offset best) := by
  rw [scanFrom]
  generalize source.get (pos + offset) = result
  obtain ⟨e | _ | c, after⟩ := result <;> rfl

/-- A match that is remembered was decoded. -/
theorem le_limit_of_bestAt {a : Automaton} {state offset limit pos : Nat} {best : Option Match}
    (hoffset : pos + offset ≤ limit)
    (hbest : pos + (best.getD Tokenizer.unmatched).length ≤ limit) :
    pos + ((bestAt a state offset best).getD Tokenizer.unmatched).length ≤ limit := by
  unfold bestAt
  split
  · exact hoffset
  · exact hbest

/-- Scanning a window is scanning the events that it brings. -/
theorem scans_scanFrom (a : Automaton) {pos : Nat} {source : CharSource} {first : List Char}
    {rest : List CharEvent} {best : Option Match} (state : Nat)
    (hbrings : source.Brings pos (first.map CharEvent.char ++ rest))
    (hlimit : pos + first.length ≤ source.limit)
    (hbest : pos + (best.getD Tokenizer.unmatched).length ≤ source.limit) :
    Scans pos (first.map CharEvent.char ++ rest) (Munch.scanFrom a state first.length best rest)
      (scanFrom a pos source state first.length best) := by
  induction rest generalizing first source best state with
  | nil =>
    have hmeets := hbrings.get
    have hless := hbrings.limit_le_get first.length
    rw [scanFrom_eq, Munch.scanFrom]
    generalize source.get (pos + first.length) = result at hmeets hless
    cases hmeets with
    | ended hafter =>
      exact Scans.matched hafter
        (le_limit_of_bestAt (Nat.le_trans hlimit hless) (Nat.le_trans hbest hless))
  | cons event rest ih =>
    have hmeets := hbrings.get
    have hless := hbrings.limit_le_get first.length
    rw [scanFrom_eq]
    generalize hget : source.get (pos + first.length) = result at hmeets hless
    cases hmeets with
    | failed hafter =>
      refine Scans.failure ?_
      rw [← List.length_map CharEvent.char, List.eraseIdx_append_of_length_le (Nat.le_refl _),
        Nat.sub_self]
      exact hafter
    | refused hafter => exact Scans.invalid hafter
    | @char after c _ hafter =>
      have hkept : pos + ((bestAt a state first.length best).getD Tokenizer.unmatched).length ≤
          after.limit :=
        le_limit_of_bestAt (Nat.le_trans hlimit hless) (Nat.le_trans hbest hless)
      rw [Munch.scanFrom]
      dsimp only
      cases a.step state c with
      | none => exact Scans.matched hafter hkept
      | some next =>
        -- The character that was read goes to those in front.
        have hevents : first.map CharEvent.char ++ .char c :: rest =
            (first ++ [c]).map CharEvent.char ++ rest := by
          rw [List.map_append, List.append_assoc]
          rfl
        have hlength : (first ++ [c]).length = first.length + 1 := List.length_append
        have hnext : pos + (first ++ [c]).length ≤ after.limit := by
          rw [hlength]
          exact CharSource.lt_limit_of_get hget
        rw [hevents] at hafter ⊢
        have hscans := ih next hafter hnext hkept
        rwa [hlength] at hscans

/-- The same from the place where a tokenizer scans, if there is a character. -/
theorem scans_scan {w : WindowTokenizer} {source : CharSource} {events : List CharEvent}
    (hbrings : source.Brings w.scanPos events) (hlimit : w.scanPos < source.limit) :
    Scans w.scanPos events (Munch.scan w.automaton events) (w.scan source) :=
  @scans_scanFrom w.automaton w.scanPos source [] events none w.automaton.start hbrings
    (Nat.le_of_lt hlimit) hlimit

/-! ## The two tokenizers side by side -/

/-- A tokenizer over a window is where a tokenizer over events is. -/
structure Mirrors (w : WindowTokenizer) (t : Tokenizer) : Prop where
  automaton_eq : w.automaton = t.automaton
  history_eq : w.history = t.history
  acceptUnknown_eq : w.acceptUnknown = t.acceptUnknown
  skipId_eq : w.skipId = t.skipId
  position_eq : w.position = t.position
  tokens_eq : w.tokens = t.tokens
  cursor_eq : w.cursor = t.past.length
  brings : w.source.Brings w.scanPos t.input

variable {w : WindowTokenizer} {t : Tokenizer} {source : CharSource} {input : List CharEvent}

/-- The two stay alike when the source has brought what the other has looked at. -/
theorem Mirrors.of_brings (hmirrors : w.Mirrors t) (hbrings : source.Brings w.scanPos input) :
    Mirrors { w with source := source } { t with input := input } where
  automaton_eq := hmirrors.automaton_eq
  history_eq := hmirrors.history_eq
  acceptUnknown_eq := hmirrors.acceptUnknown_eq
  skipId_eq := hmirrors.skipId_eq
  position_eq := hmirrors.position_eq
  tokens_eq := hmirrors.tokens_eq
  cursor_eq := hmirrors.cursor_eq
  brings := hbrings

/-- The cursor is at the end of the tokens where no token is known to come. -/
theorem Mirrors.cursor_ne_iff (hmirrors : w.Mirrors t) :
    w.cursor ≠ w.tokens.length ↔ (!t.upcoming.isEmpty) = true := by
  rw [hmirrors.cursor_eq, hmirrors.tokens_eq, Tokenizer.tokens, List.length_append,
    List.length_reverse, Bool.not_eq_true', List.isEmpty_eq_false_iff, ← List.length_pos_iff]
  omega

/-- A match that was decoded is cut off alike. -/
theorem Mirrors.cut (hmirrors : w.Mirrors t) (hbrings : source.Brings w.scanPos t.input)
    {found : Match} (hlimit : w.scanPos + found.length ≤ source.limit) :
    (w.cut source found).1 = (t.cut found).1 ∧ (w.cut source found).2.Mirrors (t.cut found).2 := by
  obtain ⟨s, hlength, hchars, htext, hbehind⟩ := hbrings.text hlimit
  have hsame : (t.input.take found.length).filterMap CharEvent.char? = s := by
    rw [hchars, List.filterMap_map]
    exact List.filterMap_some
  have hplace : w.position.advanceOver s found.length = t.position.advance s := by
    rw [← hlength, Position.advanceOver_eq, hmirrors.position_eq]
  simp only [WindowTokenizer.cut, Tokenizer.cut, htext, hsame, String.toList_ofList]
  refine ⟨?_, ?_⟩
  · rw [hmirrors.position_eq]
  · exact ⟨hmirrors.automaton_eq, hmirrors.history_eq, hmirrors.acceptUnknown_eq,
      hmirrors.skipId_eq, hplace, hmirrors.tokens_eq, hmirrors.cursor_eq, hbehind.release⟩

/-- A token is added alike, and the same tokens are given up. -/
theorem Mirrors.push (hmirrors : w.Mirrors t) (hunknown : t.upcoming = []) (token : Token) :
    (w.push token).compact.Mirrors (t.push w.pinned token) := by
  have htokens : (w.push token).tokens = t.past.reverse ++ [token] := by
    rw [WindowTokenizer.push, hmirrors.tokens_eq, Tokenizer.tokens, hunknown, List.append_nil]
  have hlength : (w.push token).tokens.length = t.past.length + 1 := by
    rw [htokens, List.length_append, List.length_reverse]
    rfl
  have hcursor : (w.push token).cursor = t.past.length := hmirrors.cursor_eq
  have hhistory : (w.push token).history = t.history := hmirrors.history_eq
  have hpinned : (w.push token).pinned = w.pinned := rfl
  have hkeep : (w.pinned || decide (t.past.length + 1 ≤ Tokenizer.capacity t.history)) =
      !(!w.pinned && decide (Tokenizer.capacity t.history < t.past.length + 1)) := by
    rw [Bool.not_and, Bool.not_not, ← decide_not, decide_eq_decide.mpr Nat.not_lt]
  rw [compact, hlength, hcursor, hhistory, hpinned, hkeep, Tokenizer.push]
  cases !w.pinned && decide (Tokenizer.capacity t.history < t.past.length + 1) with
  | false =>
    exact ⟨hmirrors.automaton_eq, hmirrors.history_eq, hmirrors.acceptUnknown_eq,
      hmirrors.skipId_eq, hmirrors.position_eq, htokens, hcursor, hmirrors.brings⟩
  | true =>
    refine ⟨hmirrors.automaton_eq, rfl, hmirrors.acceptUnknown_eq, hmirrors.skipId_eq,
      hmirrors.position_eq, ?_, ?_, hmirrors.brings⟩
    · change (w.push token).tokens.drop (t.past.length - t.history) =
        (t.past.take t.history).reverse ++ [token]
      rw [htokens, List.drop_append_of_le_length (by simp), List.reverse_take]
    · change t.past.length - (t.past.length - t.history) = (t.past.take t.history).length
      rw [List.length_take]
      omega

/-- Giving up tokens keeps the mark. -/
theorem pinned_compact (w : WindowTokenizer) : w.compact.pinned = w.pinned := by
  rw [compact]
  split <;> rfl

/-- Filling without the reasons why it ends. -/
theorem fill_eq (w : WindowTokenizer) :
    w.fill =
      if w.cursor ≠ w.tokens.length then (.ok true, w)
      else
        match w.source.get w.scanPos with
        | (.error e, read) => (.error e, { w with source := read })
        | (.ok none, read) => (.ok false, { w with source := read })
        | (.ok (some _), read) =>
          match w.scan read with
          | (.error e, scanned) => (.error e, { w with source := scanned })
          | (.ok best, scanned) =>
            let found := best.getD Tokenizer.unmatched
            let next := w.cut scanned found
            if w.skipId = some next.1.id then
              if 0 < found.length then next.2.fill else (.ok false, { w with source := scanned })
            else (.ok true, (next.2.push next.1).compact) := by
  rw [fill]
  refine congrArg (ite _ _) ?_
  generalize w.source.get w.scanPos = result
  obtain ⟨e | _ | c, read⟩ := result
  · rfl
  · rfl
  · dsimp only
    generalize w.scan read = result
    obtain ⟨e | best, scanned⟩ := result <;> rfl

/-- In front of a character the window gives it, and then a scan ends as one of the events. -/
theorem Mirrors.scans (hmirrors : w.Mirrors t) {c : Char} {rest : List CharEvent}
    (hinput : t.input = .char c :: rest) :
    ∃ read, w.source.get w.scanPos = (.ok (some c), read) ∧
      Scans w.scanPos t.input (Munch.scan t.automaton t.input) (w.scan read) := by
  have hmeets := hmirrors.brings.get_first
  generalize hget : w.source.get w.scanPos = result at hmeets
  rw [hinput] at hmeets
  cases hmeets with
  | @char read c tail hafter =>
    rw [← hmirrors.automaton_eq, hinput]
    exact ⟨read, rfl, scans_scan hafter (CharSource.lt_limit_of_get hget)⟩

/-- What filling does behind a match of the events. -/
theorem Mirrors.exists_cut (hmirrors : w.Mirrors t) (hunknown : ¬(!t.upcoming.isEmpty) = true)
    {c : Char} {rest : List CharEvent} (hinput : t.input = .char c :: rest) {best : Option Match}
    (hscan : Munch.scan t.automaton t.input = .matched best) {found : Match}
    (hfound : best.getD Tokenizer.unmatched = found) :
    ∃ (scanned : CharSource) (next : WindowTokenizer), scanned.Brings w.scanPos t.input ∧
      next.Mirrors (t.cut found).2 ∧ next.pinned = w.pinned ∧
      w.fill = if t.skipId = some (t.cut found).1.id then
          if 0 < found.length then next.fill else (.ok false, { w with source := scanned })
        else (.ok true, (next.push (t.cut found).1).compact) := by
  obtain ⟨read, hget, hscans⟩ := hmirrors.scans hinput
  rw [fill_eq, if_neg (mt hmirrors.cursor_ne_iff.mp hunknown), hget]
  dsimp only
  generalize w.scan read = result at hscans ⊢
  rw [hscan] at hscans
  cases hscans with
  | @matched scanned _ hafter hbest =>
    rw [hfound] at hbest
    obtain ⟨htoken, hnext⟩ := hmirrors.cut hafter hbest
    refine ⟨scanned, (w.cut scanned found).2, hafter, hnext, rfl, ?_⟩
    dsimp only
    rw [hfound, htoken, hmirrors.skipId_eq]

/-- Filling over a window is looking ahead over events. -/
theorem Mirrors.fill (hmirrors : w.Mirrors t) :
    w.fill.1 = (t.lookAhead w.pinned).1 ∧ w.fill.2.Mirrors (t.lookAhead w.pinned).2 ∧
      w.fill.2.pinned = w.pinned := by
  generalize hpinned : w.pinned = pinned
  fun_induction Tokenizer.lookAhead pinned t generalizing w with
  | case1 t hknown =>
    rw [fill_eq, if_pos (hmirrors.cursor_ne_iff.mpr hknown)]
    exact ⟨rfl, hmirrors, hpinned⟩
  | case2 t hunknown hinput =>
    have hfront := hmirrors.brings.get_first
    rw [fill_eq, if_neg (mt hmirrors.cursor_ne_iff.mp hunknown)]
    generalize w.source.get w.scanPos = result at hfront ⊢
    rw [hinput] at hfront
    cases hfront with
    | ended hafter => exact ⟨rfl, hmirrors.of_brings (hinput ▸ hafter), hpinned⟩
  | case3 t hunknown message rest hinput =>
    have hfront := hmirrors.brings.get_first
    rw [fill_eq, if_neg (mt hmirrors.cursor_ne_iff.mp hunknown)]
    generalize w.source.get w.scanPos = result at hfront ⊢
    rw [hinput] at hfront
    cases hfront with
    | failed hafter => exact ⟨rfl, hmirrors.of_brings hafter, hpinned⟩
  | case4 t hunknown offset rest hinput =>
    have hfront := hmirrors.brings.get_first
    rw [fill_eq, if_neg (mt hmirrors.cursor_ne_iff.mp hunknown)]
    generalize w.source.get w.scanPos = result at hfront ⊢
    rw [hinput] at hfront
    cases hfront with
    | refused hafter => exact ⟨rfl, hmirrors.of_brings (hinput ▸ hafter), hpinned⟩
  | case5 t hunknown c rest hinput offset message hscan =>
    obtain ⟨read, hget, hscans⟩ := hmirrors.scans hinput
    rw [fill_eq, if_neg (mt hmirrors.cursor_ne_iff.mp hunknown), hget]
    dsimp only
    generalize w.scan read = result at hscans ⊢
    rw [hscan] at hscans
    cases hscans with
    | failure hafter => exact ⟨rfl, hmirrors.of_brings hafter, hpinned⟩
  | case6 t hunknown c rest hinput offset hscan =>
    obtain ⟨read, hget, hscans⟩ := hmirrors.scans hinput
    rw [fill_eq, if_neg (mt hmirrors.cursor_ne_iff.mp hunknown), hget]
    dsimp only
    generalize w.scan read = result at hscans ⊢
    rw [hscan] at hscans
    cases hscans with
    | invalid hafter => exact ⟨rfl, hmirrors.of_brings hafter, hpinned⟩
  | case7 t hunknown c rest hinput best hscan found next hskip hlength =>
    rename_i ih
    obtain ⟨_, behind, -, hbehind, hsame, hfill⟩ :=
      hmirrors.exists_cut hunknown hinput hscan (rfl : _ = found)
    rw [hfill, if_pos hskip, if_pos hlength]
    exact ih hbehind (hsame.trans hpinned)
  | case8 t hunknown c rest hinput best hscan found next hskip =>
    rename_i hlength
    obtain ⟨_, _, hafter, -, -, hfill⟩ :=
      hmirrors.exists_cut hunknown hinput hscan (rfl : _ = found)
    rw [hfill, if_pos hskip, if_neg hlength]
    exact ⟨rfl, hmirrors.of_brings hafter, hpinned⟩
  | case9 t hunknown c rest hinput best hscan found next =>
    rename_i hskip
    obtain ⟨_, behind, -, hbehind, hsame, hfill⟩ :=
      hmirrors.exists_cut hunknown hinput hscan (rfl : _ = found)
    have hnone : t.upcoming = [] := by simpa using hunknown
    have hpushed := hbehind.push hnone next.1
    rw [hsame, hpinned] at hpushed
    rw [hfill, if_neg hskip]
    exact ⟨rfl, hpushed, (pinned_compact _).trans (hsame.trans hpinned)⟩

/-! ## Whatever is asked -/

/-- Moving over the next token moves the cursor. -/
theorem Mirrors.stepForward (hmirrors : w.Mirrors t) : w.stepForward.Mirrors t.stepForward := by
  have hlength : w.tokens.length = t.past.length + t.upcoming.length := by
    rw [hmirrors.tokens_eq, Tokenizer.tokens, List.length_append, List.length_reverse]
  have hcursor := hmirrors.cursor_eq
  rw [WindowTokenizer.stepForward, Tokenizer.stepForward]
  cases hupcoming : t.upcoming with
  | nil =>
    rw [hupcoming, List.length_nil] at hlength
    rw [if_neg (by omega)]
    exact hmirrors
  | cons token rest =>
    rw [hupcoming, List.length_cons] at hlength
    rw [if_pos (by omega)]
    refine ⟨hmirrors.automaton_eq, hmirrors.history_eq, hmirrors.acceptUnknown_eq,
      hmirrors.skipId_eq, hmirrors.position_eq, ?_, congrArg (· + 1) hcursor, hmirrors.brings⟩
    rw [hmirrors.tokens_eq, Tokenizer.tokens, Tokenizer.tokens, hupcoming, List.reverse_cons,
      List.append_assoc]
    rfl

/-- Moving back over tokens moves the cursor back. -/
theorem Mirrors.stepBack (hmirrors : w.Mirrors t) (count : Nat) :
    (w.stepBack count).Mirrors (t.stepBack count) where
  automaton_eq := hmirrors.automaton_eq
  history_eq := hmirrors.history_eq
  acceptUnknown_eq := hmirrors.acceptUnknown_eq
  skipId_eq := hmirrors.skipId_eq
  position_eq := hmirrors.position_eq
  tokens_eq := hmirrors.tokens_eq.trans (t.tokens_stepBack count).symm
  cursor_eq := by
    rw [t.length_past_stepBack, ← hmirrors.cursor_eq]
    rfl
  brings := hmirrors.brings

/-- The token behind the cursor is the next one. -/
theorem Mirrors.next_eq (hmirrors : w.Mirrors t) : w.tokens[w.cursor]? = t.upcoming.head? := by
  rw [hmirrors.tokens_eq, hmirrors.cursor_eq, Tokenizer.tokens, List.getElem?_append_right (by simp),
    List.length_reverse, Nat.sub_self, List.head?_eq_getElem?]

end WindowTokenizer

/-- What every use of a tokenizer is made of. -/
inductive Stride where
  | lookAhead
  | stepForward
  | stepBack (count : Nat)
  | pin (pinned : Bool)

/-- What can be seen of a tokenizer: the next token if it is known, its place, and how many tokens
can be unread. -/
structure View where
  next : Option Token
  place : Position
  unreadable : Nat
deriving DecidableEq

namespace WindowTokenizer

variable {w : WindowTokenizer} {t : Tokenizer}

/-- What can be seen of a tokenizer over the window. -/
def view (w : WindowTokenizer) : View := ⟨w.tokens[w.cursor]?, w.place, w.cursor⟩

/-- One stride, with its answer. -/
def stride (w : WindowTokenizer) : Stride → Except TokenizerError Bool × WindowTokenizer
  | .lookAhead => w.fill
  | .stepForward => (.ok true, w.stepForward)
  | .stepBack count => (.ok true, w.stepBack count)
  | .pin pinned => (.ok true, w.pin pinned)

/-- The answers to some strides, each with what can be seen behind it. -/
def answers (w : WindowTokenizer) : List Stride → List (Except TokenizerError Bool × View)
  | [] => []
  | s :: rest => ((w.stride s).1, (w.stride s).2.view) :: (w.stride s).2.answers rest

end WindowTokenizer

namespace PinnedTokenizer

/-- What can be seen of a tokenizer over the events. -/
def view (p : PinnedTokenizer) : View :=
  ⟨p.tokenizer.upcoming.head?, p.tokenizer.place, p.tokenizer.past.length⟩

/-- One stride, with its answer. -/
def stride (p : PinnedTokenizer) : Stride → Except TokenizerError Bool × PinnedTokenizer
  | .lookAhead => p.use Reading.lookAhead
  | .stepForward => (.ok true, { p with tokenizer := p.tokenizer.stepForward })
  | .stepBack count => (.ok true, p.stepBack count)
  | .pin pinned => (.ok true, { p with pinned := pinned })

/-- The answers to some strides, each with what can be seen behind it. -/
def answers (p : PinnedTokenizer) : List Stride → List (Except TokenizerError Bool × View)
  | [] => []
  | s :: rest => ((p.stride s).1, (p.stride s).2.view) :: (p.stride s).2.answers rest

end PinnedTokenizer

namespace WindowTokenizer

variable {w : WindowTokenizer} {p : PinnedTokenizer}

/-- What can be seen of the two is the same. -/
theorem Mirrors.view_eq (hmirrors : w.Mirrors p.tokenizer) : w.view = p.view := by
  rw [view, PinnedTokenizer.view, place, hmirrors.next_eq, hmirrors.position_eq,
    hmirrors.cursor_eq, Tokenizer.place]

/-- A stride gives the same answer, and keeps the two where each other is. -/
theorem Mirrors.stride (hmirrors : w.Mirrors p.tokenizer) (hpinned : w.pinned = p.pinned)
    (s : Stride) :
    (w.stride s).1 = (p.stride s).1 ∧ (w.stride s).2.Mirrors (p.stride s).2.tokenizer ∧
      (w.stride s).2.pinned = (p.stride s).2.pinned := by
  cases s with
  | lookAhead =>
    obtain ⟨hanswer, hafter, hsame⟩ := hmirrors.fill
    rw [hpinned] at hanswer hafter hsame
    exact ⟨hanswer, hafter, hsame⟩
  | stepForward =>
    refine ⟨rfl, hmirrors.stepForward, ?_⟩
    rw [WindowTokenizer.stride, WindowTokenizer.stepForward]
    split <;> exact hpinned
  | stepBack count => exact ⟨rfl, hmirrors.stepBack count, hpinned⟩
  | pin pinned =>
    exact ⟨rfl, ⟨hmirrors.automaton_eq, hmirrors.history_eq, hmirrors.acceptUnknown_eq,
      hmirrors.skipId_eq, hmirrors.position_eq, hmirrors.tokens_eq, hmirrors.cursor_eq,
      hmirrors.brings⟩, rfl⟩

/-- The two give the same answers to any strides. -/
theorem Mirrors.answers_eq (hmirrors : w.Mirrors p.tokenizer) (hpinned : w.pinned = p.pinned)
    (strides : List Stride) : w.answers strides = p.answers strides := by
  induction strides generalizing w p with
  | nil => rfl
  | cons s rest ih =>
    obtain ⟨hanswer, hafter, hsame⟩ := hmirrors.stride hpinned s
    rw [answers, PinnedTokenizer.answers, hanswer, hafter.view_eq, ih hafter hsame]

/-- Tokenizers over a window and over what arrives, which start in the same way, give the same
answers to whatever they are asked. -/
theorem answers_create (a : Automaton) (config : TokenizerConfig) (arrivals : List Arrival)
    (strides : List Stride) :
    (create a config arrivals).map (fun w => w.answers strides) =
      (Tokenizer.create a config arrivals).map fun t => (PinnedTokenizer.mk t false).answers strides := by
  have hbrings := CharSource.brings_create config.chunk arrivals
  rw [create, Tokenizer.create]
  cases config.skip with
  | none =>
    refine congrArg Except.ok (Mirrors.answers_eq ?_ rfl strides)
    exact ⟨rfl, rfl, rfl, rfl, rfl, rfl, rfl, hbrings⟩
  | some name =>
    dsimp only
    cases a.tokenId? name with
    | none => rfl
    | some id =>
      refine congrArg Except.ok (Mirrors.answers_eq ?_ rfl strides)
      exact ⟨rfl, rfl, rfl, rfl, rfl, rfl, rfl, hbrings⟩

end WindowTokenizer
end Munch

import Munch.Proofs.Tokenizer.CharSource

/-!
# What a reader's octets say

However a reader cuts its octets, what is decoded of them begins the same text: that of their
longest valid beginning.  How much of it is delivered does depend on the cuts, but where it is said
to end, or to be wrong, does not.

Main results:

- Theorem {lit}`CharEvent.exists_longestValid_ofSource`: what arrives from a reader begins the text
  of the longest valid beginning of its octets.
- Theorem {lit}`CharSource.get_longestValid`: so does what a window shows, whatever was asked.
-/

namespace Munch
namespace CharEvent

/-- What arrives from a reader begins the text of the longest valid beginning of its octets.  If
nothing is wrong in it, all octets are valid, and it is their text; otherwise they are not, and the
place is behind the longest valid beginning. -/
theorem exists_longestValid_ofSource (buffer : Nat) {arrivals : List Arrival}
    (hpieces : .bytes [] ∉ arrivals) :
    ∃ valid, Utf8.LongestValid (arrivals.flatMap Arrival.octets) valid ∧
      text (ofSource buffer arrivals) <+: valid ∧
      (fault? (ofSource buffer arrivals) = none →
        arrivals.flatMap Arrival.octets = Utf8.encode valid ∧
          text (ofSource buffer arrivals) = valid) ∧
      ∀ offset, fault? (ofSource buffer arrivals) = some offset →
        offset = (Utf8.encode valid).length ∧
          ¬∃ other, arrivals.flatMap Arrival.octets = Utf8.encode other := by
  obtain ⟨hoctets, hsplit⟩ := octets_split buffer hpieces
  have harrives := arrives_ofArrivals hsplit (.between 0)
  rw [hoctets] at harrives
  rw [ofSource]
  generalize arrivals.flatMap Arrival.octets = octets at harrives ⊢
  generalize ofArrivals (.between 0) (arrivals.flatMap (Arrival.split buffer)) = events
    at harrives ⊢
  cases harrives with
  | @whole next hfeed hfault _ =>
    obtain ⟨hvalid, hstart, hends⟩ := Utf8.longestValid_of_feed hfeed
    refine ⟨text events, hvalid, List.prefix_refl _, fun hnone => ⟨?_, rfl⟩, fun offset hsome => ?_⟩
    · rw [hfault] at hnone
      split at hnone
      · rename_i howed
        obtain ⟨other, hother⟩ := hends.mp howed
        rw [hother] at hvalid ⊢
        rw [hvalid.unique (Utf8.longestValid_encode other)]
      · cases hnone
    · rw [hfault] at hsome
      split at hsome
      · cases hsome
      · rename_i howed
        cases hsome
        exact ⟨hstart, fun hother => howed (hends.mpr hother)⟩
  | @refused front next offset hfront hfeed hrefused hfault =>
    obtain ⟨valid, hvalid, hoffset, hnot⟩ := Utf8.exists_longestValid_of_feed_error hrefused
    have hbegins : Utf8.encode (text events) <+: front := (Utf8.longestValid_of_feed hfeed).1.begins
    refine ⟨valid, hvalid, hvalid.prefix_of_begins (hbegins.trans hfront), fun hnone => ?_,
      fun place hsome => ?_⟩
    · rw [hfault] at hnone
      cases hnone
    · rw [hfault] at hsome
      cases hsome
      exact ⟨hoffset, hnot⟩

end CharEvent

/-! ## What a window shows -/

/-- What can be asked of a window. -/
inductive Ask where
  | get (pos : Nat)
  | release (pos : Nat)

namespace CharSource

/-- A window after something was asked of it. -/
def ask (w : CharSource) : Ask → CharSource
  | .get pos => (w.get pos).2
  | .release pos => w.release pos

/-- A window after some things were asked of it, one after the other. -/
def after (w : CharSource) (asks : List Ask) : CharSource := asks.foldl ask w

/-- What a window has decoded and what is still to come are what arrives, apart from failures. -/
def Delivers (w : CharSource) (whole : List CharEvent) : Prop :=
  ∃ base s events, w.Holds base s events ∧ CharEvent.text whole = s ++ CharEvent.text events ∧
    CharEvent.fault? whole = CharEvent.fault? events

variable {w : CharSource} {whole : List CharEvent}

theorem delivers_create (chunk : Nat) (arrivals : List Arrival) :
    (create chunk arrivals).Delivers (CharEvent.ofSource (max chunk 4) arrivals) :=
  ⟨0, [], _, holds_create chunk arrivals, rfl, rfl⟩

/-- How asking for a character that was not given up ends, with respect to all that arrives. -/
inductive Answers (whole : List CharEvent) (pos : Nat) :
    Except TokenizerError (Option Char) × CharSource → Prop where
  | found {after : CharSource} {c : Char} (hafter : after.Delivers whole)
      (hc : (CharEvent.text whole)[pos]? = some c) : Answers whole pos (.ok (some c), after)
  | ended {after : CharSource} (hafter : after.Delivers whole)
      (hfault : CharEvent.fault? whole = none) (hpos : (CharEvent.text whole).length ≤ pos) :
      Answers whole pos (.ok none, after)
  | failed {after : CharSource} {message : String} (hafter : after.Delivers whole) :
      Answers whole pos (.error (.source message), after)
  | refused {after : CharSource} {offset : Nat} (hafter : after.Delivers whole)
      (hfault : CharEvent.fault? whole = some offset) (hinvalid : after.invalidAt = some offset) :
      Answers whole pos (.error (.invalidUtf8 offset), after)

/-- What a window decodes moves from what was to come to what it has, and a failure that it passes
on changes neither. -/
theorem delivered {base : Nat} {s more : List Char} {events rest : List CharEvent}
    (hafter : w.Holds base (s ++ more) rest)
    (htext : CharEvent.text whole = s ++ CharEvent.text (more.map CharEvent.char ++ events))
    (hfault : CharEvent.fault? whole = CharEvent.fault? (more.map CharEvent.char ++ events))
    (hsame : CharEvent.text events = CharEvent.text rest)
    (hwrong : CharEvent.fault? events = CharEvent.fault? rest) :
    w.Delivers whole ∧ CharEvent.text whole = s ++ more ++ CharEvent.text rest ∧
      CharEvent.fault? whole = CharEvent.fault? rest := by
  rw [CharEvent.text_map_append, hsame, ← List.append_assoc] at htext
  rw [CharEvent.fault?_map_append, hwrong] at hfault
  exact ⟨⟨base, _, _, hafter, htext, hfault⟩, htext, hfault⟩

theorem Delivers.answers (hdelivers : w.Delivers whole) {pos : Nat} (hbase : w.base ≤ pos) :
    Answers whole pos (w.get pos) := by
  obtain ⟨base, s, events, hholds, htext, hfault⟩ := hdelivers
  have hgets := hholds.gets (hholds.shown.base_eq ▸ hbase)
  generalize w.get pos = result at hgets
  cases hgets with
  | found hafter hc =>
    obtain ⟨hdelivers, htext, -⟩ := delivered hafter htext hfault rfl rfl
    obtain ⟨hlt, -⟩ := List.getElem?_eq_some_iff.mp hc
    refine Answers.found hdelivers ?_
    rw [htext, List.getElem?_append_left hlt, hc]
  | ended hafter hpos =>
    obtain ⟨hdelivers, htext, hfault⟩ := delivered hafter htext hfault rfl rfl
    refine Answers.ended hdelivers hfault ?_
    rwa [htext, CharEvent.text, List.append_nil]
  | failed hafter hpos => exact Answers.failed (delivered hafter htext hfault rfl rfl).1
  | refused hinvalid hafter hpos =>
    obtain ⟨hdelivers, -, hfault⟩ := delivered hafter htext hfault rfl rfl
    exact Answers.refused hdelivers hfault hinvalid

theorem Delivers.ask (hdelivers : w.Delivers whole) (step : Ask) : (w.ask step).Delivers whole := by
  cases step with
  | get pos =>
    rw [CharSource.ask]
    by_cases hbase : w.base ≤ pos
    · have hanswers := hdelivers.answers hbase
      generalize w.get pos = result at hanswers
      cases hanswers <;> assumption
    · rw [get_of_lt (Nat.lt_of_not_le hbase)]
      exact hdelivers
  | release pos =>
    obtain ⟨base, s, events, hholds, hsame⟩ := hdelivers
    obtain ⟨base', -, hreleased⟩ := hholds.release pos
    exact ⟨base', s, events, hreleased, hsame⟩

theorem Delivers.after (hdelivers : w.Delivers whole) (asks : List Ask) :
    (w.after asks).Delivers whole := by
  induction asks generalizing w with
  | nil => exact hdelivers
  | cons step asks ih => exact ih (hdelivers.ask step)

/-! ## Where octets are wrong -/

variable {offset : Nat}

/-- A window that has come to wrong octets ends in front of them each time. -/
theorem get_of_invalid (hinvalid : w.invalidAt = some offset) (pos : Nat) :
    w.get pos =
      if pos < w.base + w.chars.length then
        (.ok (if w.base ≤ pos then w.chars[pos - w.base]? else none), w)
      else (.error (.invalidUtf8 offset), w) := by
  rw [get]
  split
  · rfl
  · have hfill : w.fill = (.error (.invalidUtf8 offset), w) := by
      rw [fill, hinvalid]
    split <;> simp_all

theorem invalidAt_ask (hinvalid : w.invalidAt = some offset) (step : Ask) :
    (w.ask step).invalidAt = some offset := by
  cases step with
  | get pos =>
    rw [ask, get_of_invalid hinvalid]
    split <;> exact hinvalid
  | release pos =>
    rw [ask, release]
    split <;> exact hinvalid

theorem invalidAt_after (hinvalid : w.invalidAt = some offset) (asks : List Ask) :
    (w.after asks).invalidAt = some offset := by
  induction asks generalizing w with
  | nil => exact hinvalid
  | cons step asks ih => exact ih (invalidAt_ask hinvalid step)

/-- However a reader cuts the octets of a stream, and however often it is interrupted or fails:
a character that a window shows is that of the longest valid beginning of the stream; the window
ends only where the stream is valid and has no more characters; and if it comes to octets that are
wrong, the stream is not valid, the place is behind the longest valid beginning, and the window
ends there each time that a character is asked for behind those that were decoded. -/
theorem get_longestValid (stream : List UInt8) :
    ∃ valid, Utf8.LongestValid stream valid ∧
      ∀ (chunk : Nat) (arrivals : List Arrival), .bytes [] ∉ arrivals →
        arrivals.flatMap Arrival.octets = stream → ∀ (asks : List Ask) (pos : Nat),
          let w := (create chunk arrivals).after asks
          (∀ c, w.base ≤ pos → (w.get pos).1 = .ok (some c) → valid[pos]? = some c) ∧
          (w.base ≤ pos → (w.get pos).1 = .ok none →
            stream = Utf8.encode valid ∧ valid.length ≤ pos) ∧
          ∀ offset, (w.get pos).1 = .error (.invalidUtf8 offset) →
            (¬∃ other, stream = Utf8.encode other) ∧ offset = (Utf8.encode valid).length ∧
              ∀ (later : List Ask) (place : Nat),
                let last := (w.get pos).2.after later
                last.base + last.chars.length ≤ place →
                  last.get place = (.error (.invalidUtf8 offset), last) := by
  obtain ⟨valid, hvalid⟩ := Utf8.exists_longestValid stream
  refine ⟨valid, hvalid, fun chunk arrivals hpieces hoctets asks pos => ?_⟩
  intro w
  obtain ⟨other, hother, htext, hends, hwrong⟩ :=
    CharEvent.exists_longestValid_ofSource (max chunk 4) hpieces
  rw [hoctets] at hother hends hwrong
  obtain rfl := hvalid.unique hother
  have hdelivers : w.Delivers (CharEvent.ofSource (max chunk 4) arrivals) :=
    (delivers_create chunk arrivals).after asks
  refine ⟨fun c hbase hget => ?_, fun hbase hget => ?_, fun offset hget => ?_⟩
  · have hanswers := hdelivers.answers hbase
    generalize w.get pos = result at hanswers hget
    cases hanswers with
    | found hafter hc =>
      cases hget
      obtain ⟨hlt, -⟩ := List.getElem?_eq_some_iff.mp hc
      obtain ⟨rest, rfl⟩ := htext
      rw [List.getElem?_append_left hlt, hc]
    | _ => cases hget
  · have hanswers := hdelivers.answers hbase
    generalize w.get pos = result at hanswers hget
    cases hanswers with
    | ended hafter hfault hpos =>
      obtain ⟨hstream, hsame⟩ := hends hfault
      exact ⟨hstream, hsame ▸ hpos⟩
    | _ => cases hget
  · have hbase : w.base ≤ pos := by
      by_contra hlt
      rw [get_of_lt (Nat.lt_of_not_le hlt)] at hget
      cases hget
    have hanswers := hdelivers.answers hbase
    generalize w.get pos = result at hanswers hget
    cases hanswers with
    | @refused after _ hafter hfault hinvalid =>
      cases hget
      obtain ⟨hplace, hnot⟩ := hwrong _ hfault
      refine ⟨hnot, hplace, fun later place => ?_⟩
      intro last hbeyond
      rw [get_of_invalid (invalidAt_after hinvalid later), if_neg (Nat.not_lt.mpr hbeyond)]
    | _ => cases hget

/-- Octets that end within a character, which a reader delivers one at a time. -/
def truncated : List Arrival := [.bytes [97], .interrupted, .bytes [0xE2], .bytes [0x82]]

/-- The first character can be had, and the second cannot, also when it is asked for again. -/
theorem get_truncated :
    .bytes [] ∉ truncated ∧ truncated.flatMap Arrival.octets = [97, 0xE2, 0x82] ∧
      ∃ w, w = (create 1 truncated).after [.get 0, .release 1, .get 1] ∧
        (w.get 0).1 = .ok (some 'a') ∧ (w.get 1).1 = .error (.invalidUtf8 1) ∧
          ∃ valid, Utf8.LongestValid [97, 0xE2, 0x82] valid ∧ valid[0]? = some 'a' ∧
            1 = (Utf8.encode valid).length := by
  have hpieces : .bytes [] ∉ truncated := by decide
  have hoctets : truncated.flatMap Arrival.octets = [97, 0xE2, 0x82] := rfl
  have hfirst : (((create 1 truncated).after [.get 0, .release 1, .get 1]).get 0).1 =
      .ok (some 'a') := by
    decide +kernel
  have hsecond : (((create 1 truncated).after [.get 0, .release 1, .get 1]).get 1).1 =
      .error (.invalidUtf8 1) := by
    decide +kernel
  have hbase : ((create 1 truncated).after [.get 0, .release 1, .get 1]).base = 0 := by decide +kernel
  obtain ⟨valid, hvalid, hgets⟩ := get_longestValid [97, 0xE2, 0x82]
  obtain ⟨hshown, -, -⟩ := hgets 1 truncated hpieces hoctets [.get 0, .release 1, .get 1] 0
  obtain ⟨-, -, hwrong⟩ := hgets 1 truncated hpieces hoctets [.get 0, .release 1, .get 1] 1
  obtain ⟨-, hplace, -⟩ := hwrong 1 hsecond
  exact ⟨hpieces, hoctets, _, rfl, hfirst, hsecond, valid, hvalid,
    hshown 'a' (Nat.le_of_eq hbase) hfirst, hplace⟩

end CharSource
end Munch

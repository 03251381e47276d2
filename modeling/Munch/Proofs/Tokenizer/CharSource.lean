import Munch.Proofs.Text.Decoder
import Munch.Proofs.Tokenizer.Looking
import Munch.Tokenizer.CharSource

/-!
# What a window shows

A window over decoded characters reads as much as is needed when it is asked for a character.  The
text that it has decoded so far, and what is still to come behind it, are what arrives from the
reader.

Main results:

- Theorem {lit}`CharSource.Holds.fills`: reading on adds the characters that arrive next.
- Theorem {lit}`CharSource.Holds.gets`: asking for a character finds it among what arrives.
- Theorem {lit}`CharSource.Holds.release`: giving up characters keeps those from the place on.
-/

namespace Munch

/-! ## Checking octets -/

namespace Utf8

theorem check_encode (s : List Char) : check (encode s) = .ok s := by
  rw [check, feed_encode]
  rfl

/-- What can be decoded are the octets of what is decoded. -/
theorem decodable_eq (octets : List UInt8) :
    decodable octets =
      (feed [] (.between 0) octets).map fun result => (encode result.1).length := by
  rw [decodable, check]
  have hdecodes := decodes_feed (Held.between 0) octets
  rw [List.nil_append] at hdecodes
  generalize feed [] (.between 0) octets = result at hdecodes ⊢
  cases hdecodes with
  | refused => rfl
  | @read s next held hheld hoctets hstart =>
    rw [hoctets]
    cases hheld with
    | between n =>
      rw [List.append_nil]
      rfl
    | within hwithin =>
      have hlength : next.start = (encode s).length := hstart.trans (Nat.zero_add _)
      simp only [if_neg (Nat.ne_of_gt hwithin.owed_pos), Bool.false_eq_true, if_false, hlength]
      rfl

theorem feed_of_decodable {octets : List UInt8} {valid : Nat}
    (hdecodable : decodable octets = .ok valid) :
    ∃ s next, feed [] (.between 0) octets = .ok (s, next) ∧ valid = (encode s).length := by
  rw [decodable_eq] at hdecodable
  cases hfeed : feed [] (.between 0) octets with
  | error offset =>
    rw [hfeed] at hdecodable
    cases hdecodable
  | ok result =>
    rw [hfeed] at hdecodable
    cases hdecodable
    exact ⟨result.1, result.2, rfl, rfl⟩

theorem feed_of_not_decodable {octets : List UInt8} {validUpTo : Nat}
    (hdecodable : decodable octets = .error validUpTo) :
    feed [] (.between 0) octets = .error validUpTo := by
  rw [decodable_eq] at hdecodable
  cases hfeed : feed [] (.between 0) octets with
  | error offset =>
    rw [hfeed] at hdecodable
    cases hdecodable
    rfl
  | ok result =>
    rw [hfeed] at hdecodable
    cases hdecodable

/-- A decoder whose octets stand so many places later. -/
def Decoder.shift (k : Nat) (d : Decoder) : Decoder := { d with start := k + d.start }

theorem firstOctet_shift (k : Nat) (d : Decoder) (b : Nat) :
    firstOctet (d.shift k) b = (firstOctet d b).map fun result => (result.1, result.2.shift k) := by
  unfold firstOctet
  -- Each test is about the octet, and each outcome about the place.
  iterate 9
    rw [apply_ite (Option.map _)]
    refine congrArg₂ (ite _) rfl ?_
  rfl

theorem laterOctet_shift (k : Nat) (d : Decoder) (b : Nat) :
    laterOctet (d.shift k) b = (laterOctet d b).map fun result => (result.1, result.2.shift k) := by
  have hadd : k + d.start + d.seen + 1 = k + (d.start + d.seen + 1) := by omega
  simp only [laterOctet, Decoder.shift, hadd]
  split_ifs <;> rfl

theorem octet_shift (k : Nat) (d : Decoder) (b : UInt8) :
    octet (d.shift k) b = (octet d b).map fun result => (result.1, result.2.shift k) := by
  rw [octet, octet, apply_ite (Option.map _)]
  exact congrArg₂ (ite _) (firstOctet_shift k d _) (laterOctet_shift k d _)

theorem feed_shift (k : Nat) (completed : List Char) (d : Decoder) (bs : List UInt8) :
    feed completed (d.shift k) bs =
      match feed completed d bs with
      | .error offset => .error (k + offset)
      | .ok (s, d) => .ok (s, d.shift k) := by
  induction bs generalizing completed d with
  | nil => rfl
  | cons b bs ih =>
    simp only [feed, octet_shift]
    cases octet d b with
    | none => rfl
    | some result =>
      obtain ⟨_ | c, next⟩ := result
      · exact ih completed next
      · exact ih (c :: completed) next

/-- Pending octets and new ones are decoded together. -/
theorem feed_pending {decoded : Nat} {pending : List UInt8} {d : Decoder}
    (hpending : feed [] (.between decoded) pending = .ok ([], d)) (octets : List UInt8) :
    feed [] d octets =
      match feed [] (.between 0) (pending ++ octets) with
      | .error offset => .error (decoded + offset)
      | .ok (s, next) => .ok (s, next.shift decoded) := by
  have hwhole := feed_append (.between decoded) pending octets
  rw [hpending] at hwhole
  have hplain : feed [] (.between decoded) (pending ++ octets) = feed [] d octets := by
    rw [hwhole]
    change (feed [] d octets).map id = _
    cases feed [] d octets <;> rfl
  rw [← hplain]
  exact feed_shift decoded [] (.between 0) (pending ++ octets)

end Utf8

namespace CharSource

/-! ## What is still to come -/

/-- What arrives behind the decoded characters. -/
inductive Awaits (w : CharSource) : List CharEvent → Prop where
  | reading {arrivals : List Arrival} {d : Utf8.Decoder} (hvalid : w.invalidAt = none)
      (hreader : w.reader = some arrivals)
      (hpending : Utf8.feed [] (.between w.decoded) w.pending = .ok ([], d)) :
      Awaits w (CharEvent.ofArrivals d arrivals)
  | ended (hvalid : w.invalidAt = none) (hreader : w.reader = none) : Awaits w []
  | refused {offset : Nat} (hinvalid : w.invalidAt = some offset) : Awaits w [.invalid offset]

/-- A text was decoded, and its characters from some place on are kept. -/
structure Shows (w : CharSource) (base : Nat) (s : List Char) : Prop where
  base_eq : w.base = base
  base_le : base ≤ s.length
  chars_eq : w.chars = s.drop base

/-- A text was decoded, and some events are still to come. -/
structure Holds (w : CharSource) (base : Nat) (s : List Char) (events : List CharEvent) :
    Prop where
  shown : w.Shows base s
  awaits : w.Awaits events

variable {w after : CharSource} {base : Nat} {s : List Char} {events : List CharEvent}

/-- The characters up to the limit of a window are those that were decoded. -/
theorem Shows.limit_eq (hshows : w.Shows base s) : w.limit = s.length := by
  rw [limit, hshows.base_eq, hshows.chars_eq, List.length_drop,
    Nat.add_sub_cancel' hshows.base_le]

/-- A window starts in front of what arrives. -/
theorem holds_create (chunk : Nat) (arrivals : List Arrival) :
    (create chunk arrivals).Holds 0 [] (CharEvent.ofSource (max chunk 4) arrivals) :=
  ⟨⟨rfl, Nat.le_refl 0, rfl⟩, Awaits.reading rfl rfl rfl⟩

/-- How reading on ends: with the characters that come next, at the end, or with a failure; where
octets are wrong it will end there again. -/
inductive Fills (base : Nat) (s : List Char) :
    List CharEvent → Except TokenizerError Bool × CharSource → Prop where
  | decoded {after : CharSource} {more : List Char} {rest : List CharEvent} (hmore : more ≠ [])
      (hafter : after.Holds base (s ++ more) rest) :
      Fills base s (more.map CharEvent.char ++ rest) (.ok true, after)
  | ended {after : CharSource} (hafter : after.Holds base s []) : Fills base s [] (.ok false, after)
  | failed {after : CharSource} {message : String} {rest : List CharEvent}
      (hafter : after.Holds base s rest) :
      Fills base s (.failure message :: rest) (.error (.source message), after)
  | refused {after : CharSource} {offset : Nat} (hinvalid : after.invalidAt = some offset)
      (hafter : after.Holds base s [.invalid offset]) :
      Fills base s [.invalid offset] (.error (.invalidUtf8 offset), after)

section Reading

variable {d : Utf8.Decoder} (hshows : w.Shows base s) (hvalid : w.invalidAt = none)
  (hpending : Utf8.feed [] (.between w.decoded) w.pending = .ok ([], d))
include hshows hvalid hpending

theorem Shows.finish : Fills base s (CharEvent.atEnd d) w.finish := by
  have hdecodes := Utf8.decodes_feed (Utf8.Held.between w.decoded) w.pending
  rw [List.nil_append, hpending] at hdecodes
  cases hdecodes with
  | @read _ _ held hheld hoctets hstart =>
    obtain rfl : w.pending = held := hoctets
    simp only [CharSource.finish, CharEvent.atEnd]
    generalize hoctets' : w.pending = octets at hheld
    cases hheld with
    | between n => exact Fills.ended ⟨⟨hshows.1, hshows.2, hshows.3⟩, Awaits.ended hvalid rfl⟩
    | within hwithin =>
      have hseen := hwithin.seen_pos
      have hne : octets ≠ [] := by
        rintro rfl
        rw [← hwithin.length_octets] at hseen
        exact Nat.lt_irrefl 0 hseen
      rw [if_neg (Nat.ne_of_gt hwithin.owed_pos), if_neg (by rwa [List.isEmpty_iff])]
      have hplace : d.start = w.decoded := hstart
      rw [hplace]
      exact Fills.refused rfl ⟨⟨hshows.1, hshows.2, hshows.3⟩, Awaits.refused rfl⟩

omit hvalid hpending in
/-- Octets that can be decoded are, and those of an unfinished character are left. -/
theorem Shows.decode {more : List Char} {next : Utf8.Decoder} {arrivals : List Arrival}
    (hvalid : w.invalidAt = none) (hreader : w.reader = some arrivals)
    (hfeed : Utf8.feed [] (.between 0) w.pending = .ok (more, next)) (hmore : more ≠ []) :
    Fills base s (more.map CharEvent.char ++ CharEvent.ofArrivals (next.shift w.decoded) arrivals)
      (w.decode (Utf8.encode more).length) := by
  have hdecodes := Utf8.decodes_feed (Utf8.Held.between 0) w.pending
  rw [List.nil_append, hfeed] at hdecodes
  cases hdecodes with
  | @read _ _ held _ hoctets _ =>
    have hfront : w.pending.take (Utf8.encode more).length = Utf8.encode more := by
      rw [hoctets, List.take_left]
    have hbehind : w.pending.drop (Utf8.encode more).length = held := by
      rw [hoctets, List.drop_left]
    simp only [CharSource.decode, hfront, Utf8.check_encode, hbehind]
    refine Fills.decoded hmore ⟨⟨hshows.base_eq, ?_, ?_⟩, Awaits.reading hvalid hreader ?_⟩
    · rw [List.length_append]
      exact Nat.le_add_right_of_le hshows.base_le
    · rw [List.drop_append_of_le_length hshows.base_le, hshows.chars_eq]
    · have hwhole : Utf8.feed [] (.between w.decoded) w.pending =
          .ok (more, next.shift w.decoded) := by
        have hshift := Utf8.feed_shift w.decoded [] (.between 0) w.pending
        rwa [hfeed] at hshift
      rw [hoctets, Utf8.feed_encode_append] at hwhole
      generalize Utf8.feed [] (.between (w.decoded + (Utf8.encode more).length)) held = last
        at hwhole ⊢
      cases last with
      | error offset => cases hwhole
      | ok last =>
        simp only [Except.map, Except.ok.injEq, Prod.mk.injEq, List.append_right_eq_self] at hwhole
        rw [← hwhole.1, ← hwhole.2]

theorem Shows.readOn (arrivals : List Arrival) :
    Fills base s (CharEvent.ofArrivals d arrivals) (w.readOn arrivals) := by
  fun_induction CharSource.readOn w arrivals generalizing d with
  | case1 w => exact hshows.finish hvalid hpending
  | case2 w rest ih => exact ih hshows hvalid hpending
  | case3 w message rest =>
    exact Fills.failed ⟨⟨hshows.1, hshows.2, hshows.3⟩, Awaits.reading hvalid rfl hpending⟩
  | case4 w octets rest hempty =>
    rw [CharEvent.ofArrivals, if_pos hempty]
    exact hshows.finish hvalid hpending
  | case5 w octets rest hne read validUpTo =>
    rename_i hdecodable
    have hfeed : Utf8.feed [] (.between 0) (w.pending ++ octets) = .error validUpTo :=
      Utf8.feed_of_not_decodable hdecodable
    rw [CharEvent.ofArrivals, if_neg hne, Utf8.feed_pending hpending octets, hfeed]
    exact Fills.refused rfl ⟨⟨hshows.1, hshows.2, hshows.3⟩, Awaits.refused rfl⟩
  | case6 w octets rest hne read =>
    rename_i hdecodable ih
    obtain ⟨more, next, hfeed, hlength⟩ := Utf8.feed_of_decodable hdecodable
    obtain rfl : more = [] := Utf8.encode_eq_nil (List.length_eq_zero_iff.mp hlength.symm)
    have hread := Utf8.feed_shift w.decoded [] (.between 0) (w.pending ++ octets)
    rw [hfeed] at hread
    change Utf8.feed [] (.between 0) (w.pending ++ octets) = _ at hfeed
    rw [CharEvent.ofArrivals, if_neg hne, Utf8.feed_pending hpending octets, hfeed]
    exact ih ⟨hshows.1, hshows.2, hshows.3⟩ hvalid hread
  | case7 w octets rest hne read valid hdecodable =>
    rename_i hpos
    obtain ⟨more, next, hfeed, rfl⟩ := Utf8.feed_of_decodable hdecodable
    have hmore : more ≠ [] := by
      rintro rfl
      exact hpos rfl
    have hread : read.Shows base s := ⟨hshows.1, hshows.2, hshows.3⟩
    have hdecoded := hread.decode hvalid rfl hfeed hmore
    change Utf8.feed [] (.between 0) (w.pending ++ octets) = _ at hfeed
    rw [CharEvent.ofArrivals, if_neg hne, Utf8.feed_pending hpending octets, hfeed]
    exact hdecoded

end Reading

/-- Reading on adds the characters that arrive next. -/
theorem Holds.fills (hholds : w.Holds base s events) : Fills base s events w.fill := by
  cases hholds.awaits with
  | reading hvalid hreader hpending =>
    rw [fill, hvalid, hreader]
    exact hholds.shown.readOn hvalid hpending _
  | ended hvalid hreader =>
    rw [fill, hvalid, hreader]
    exact Fills.ended hholds
  | refused hinvalid =>
    rw [fill, hinvalid]
    exact Fills.refused hinvalid hholds

/-! ## Asking for a character -/

/-- How asking for a character ends: it is found among what was decoded and what arrives, or what
arrives ends in front of it, or there is a failure in front of it. -/
inductive Gets (base : Nat) (s : List Char) (pos : Nat) :
    List CharEvent → Except TokenizerError (Option Char) × CharSource → Prop where
  | found {after : CharSource} {more : List Char} {rest : List CharEvent} {c : Char}
      (hafter : after.Holds base (s ++ more) rest) (hc : (s ++ more)[pos]? = some c) :
      Gets base s pos (more.map CharEvent.char ++ rest) (.ok (some c), after)
  | ended {after : CharSource} {more : List Char} (hafter : after.Holds base (s ++ more) [])
      (hpos : (s ++ more).length ≤ pos) :
      Gets base s pos (more.map CharEvent.char ++ []) (.ok none, after)
  | failed {after : CharSource} {more : List Char} {rest : List CharEvent} {message : String}
      (hafter : after.Holds base (s ++ more) rest) (hpos : (s ++ more).length ≤ pos) :
      Gets base s pos (more.map CharEvent.char ++ .failure message :: rest)
        (.error (.source message), after)
  | refused {after : CharSource} {more : List Char} {offset : Nat}
      (hinvalid : after.invalidAt = some offset)
      (hafter : after.Holds base (s ++ more) [.invalid offset])
      (hpos : (s ++ more).length ≤ pos) :
      Gets base s pos (more.map CharEvent.char ++ [.invalid offset])
        (.error (.invalidUtf8 offset), after)

/-- What was decoded first comes in front of what arrives. -/
theorem Gets.behind {pos : Nat} {first : List Char}
    {result : Except TokenizerError (Option Char) × CharSource}
    (hgets : Gets base (s ++ first) pos events result) :
    Gets base s pos (first.map CharEvent.char ++ events) result := by
  cases hgets with
  | found hafter hc =>
    rw [List.append_assoc] at hafter hc
    rw [← List.append_assoc, ← List.map_append]
    exact Gets.found hafter hc
  | ended hafter hpos =>
    rw [List.append_assoc] at hafter hpos
    rw [← List.append_assoc, ← List.map_append]
    exact Gets.ended hafter hpos
  | failed hafter hpos =>
    rw [List.append_assoc] at hafter hpos
    rw [← List.append_assoc, ← List.map_append]
    exact Gets.failed hafter hpos
  | refused hinvalid hafter hpos =>
    rw [List.append_assoc] at hafter hpos
    rw [← List.append_assoc, ← List.map_append]
    exact Gets.refused hinvalid hafter hpos

/-- Asking for a character finds it among what arrives. -/
theorem Holds.gets {pos : Nat} (hholds : w.Holds base s events) (hbase : base ≤ pos) :
    Gets base s pos events (w.get pos) := by
  fun_induction get w pos generalizing s events with
  | case1 w hkept =>
    obtain ⟨⟨rfl, hle, hchars⟩, -⟩ := id hholds
    change pos < w.limit at hkept
    rw [hholds.shown.limit_eq] at hkept
    have hc : w.chars[pos - w.base]? = some s[pos] := by
      rw [hchars, List.getElem?_drop, Nat.add_sub_cancel' hbase, List.getElem?_eq_getElem hkept]
    rw [if_pos hbase, hc]
    change Gets w.base s pos (([] : List Char).map CharEvent.char ++ events) _
    exact Gets.found (by rwa [List.append_nil]) (by rw [List.append_nil, List.getElem?_eq_getElem])
  | case2 w hbeyond e after hfill =>
    have hfills := hholds.fills
    rw [hfill] at hfills
    have hpos : s.length ≤ pos := by
      rw [← hholds.shown.limit_eq]
      exact Nat.le_of_not_lt hbeyond
    rw [← List.append_nil s] at hpos
    cases hfills with
    | failed hafter =>
      change Gets base s pos (([] : List Char).map CharEvent.char ++ .failure _ :: _) _
      exact Gets.failed (by rwa [List.append_nil]) hpos
    | refused hinvalid hafter =>
      change Gets base s pos (([] : List Char).map CharEvent.char ++ [.invalid _]) _
      exact Gets.refused hinvalid (by rwa [List.append_nil]) hpos
  | case3 w hbeyond after hfill =>
    have hfills := hholds.fills
    rw [hfill] at hfills
    have hpos : s.length ≤ pos := by
      rw [← hholds.shown.limit_eq]
      exact Nat.le_of_not_lt hbeyond
    rw [← List.append_nil s] at hpos
    cases hfills with
    | ended hafter =>
      change Gets base s pos (([] : List Char).map CharEvent.char ++ []) _
      exact Gets.ended (by rwa [List.append_nil]) hpos
  | case4 w hbeyond after hfill ih =>
    have hfills := hholds.fills
    rw [hfill] at hfills
    cases hfills with
    | decoded hmore hafter => exact (ih hafter).behind

/-- Asking for a character loses none of those that were decoded. -/
theorem Holds.limit_le_get {pos : Nat} (hholds : w.Holds base s events) (hbase : base ≤ pos) :
    w.limit ≤ (w.get pos).2.limit := by
  have hgets := hholds.gets hbase
  rw [hholds.shown.limit_eq]
  generalize w.get pos = result at hgets
  cases hgets with
  | found hafter _ | ended hafter _ | failed hafter _ | refused _ hafter _ =>
    rw [hafter.shown.limit_eq, List.length_append]
    exact Nat.le_add_right _ _

/-- A character that was given up is not there any more, and nothing changes. -/
theorem get_of_lt {pos : Nat} (hpos : pos < w.base) : w.get pos = (.ok none, w) := by
  rw [get, if_pos (Nat.lt_add_right _ hpos), if_neg (Nat.not_le.mpr hpos)]

/-- Only characters in front of the place are given up. -/
theorem Holds.release (hholds : w.Holds base s events) (pos : Nat) :
    ∃ base' ≤ max base pos, (w.release pos).Holds base' s events := by
  obtain ⟨⟨rfl, hle, hchars⟩, hawaits⟩ := hholds
  have hkept : w.chars.length = s.length - w.base := by rw [hchars, List.length_drop]
  simp only [CharSource.release]
  split
  · refine ⟨w.base + min (pos - w.base) w.chars.length, by omega, ⟨rfl, by omega, ?_⟩, ?_⟩
    · rw [hchars, List.drop_drop]
    · cases hawaits with
      | reading hvalid hreader hpending => exact Awaits.reading hvalid hreader hpending
      | ended hvalid hreader => exact Awaits.ended hvalid hreader
      | refused hinvalid => exact Awaits.refused hinvalid
  · exact ⟨w.base, Nat.le_max_left _ _, ⟨rfl, hle, hchars⟩, hawaits⟩

end CharSource
end Munch

import Mathlib.Data.List.Basic
import Munch.Proofs.Text.Utf8

/-!
# Characters with failures between them

A source that fails now and then still delivers its text.  What arrives from it spells the
text when the failures are left out, wherever they fall and however the octets are cut.

Main results:

- Theorem {lit}`CharEvent.arrives_ofArrivals`: what arrives is what is decoded, up to octets that
  are wrong.
- Theorem {lit}`CharEvent.spells_ofArrivals`: what is decoded from octets spells the text
  that they encode.
- Theorem {lit}`CharEvent.spells_ofSource`: so does what arrives from a source that is asked
  for a buffer of octets each time.
-/

namespace Munch

/-- The octets of an arrival. -/
def Arrival.octets : Arrival → List UInt8
  | .bytes octets => octets
  | _ => []

/-- The message of an arrival that failed. -/
def Arrival.message? : Arrival → Option String
  | .failure message => some message
  | _ => none

namespace CharEvent

/-! ## What events say -/

/-- The characters that arrive when failures are left out, up to a place from which the input is
not UTF-8. -/
def text : List CharEvent → List Char
  | [] => []
  | .char c :: rest => c :: text rest
  | .failure _ :: rest => text rest
  | .invalid _ :: _ => []

/-- The place from which the input is not UTF-8, if there is one. -/
def fault? : List CharEvent → Option Nat
  | [] => none
  | .char _ :: rest => fault? rest
  | .failure _ :: rest => fault? rest
  | .invalid offset :: _ => some offset

/-- The messages of the failures before the end of the input or of what is UTF-8. -/
def messages : List CharEvent → List String
  | [] => []
  | .char _ :: rest => messages rest
  | .failure message :: rest => message :: messages rest
  | .invalid _ :: _ => []

variable {events : List CharEvent} (cs : List Char)

theorem text_map_append : text (cs.map char ++ events) = cs ++ text events := by
  induction cs with
  | nil => rfl
  | cons c cs ih => exact congrArg (c :: ·) ih

theorem fault?_map_append : fault? (cs.map char ++ events) = fault? events := by
  induction cs with
  | nil => rfl
  | cons c cs ih => exact ih

theorem messages_map_append : messages (cs.map char ++ events) = messages events := by
  induction cs with
  | nil => rfl
  | cons c cs ih => exact ih

theorem text_map : text (cs.map char) = cs := by
  have happend : text (cs.map char ++ []) = cs ++ text [] := text_map_append cs
  rwa [List.append_nil, text, List.append_nil] at happend

theorem fault?_map : fault? (cs.map char) = none := by
  have happend : fault? (cs.map char ++ []) = fault? [] := fault?_map_append cs
  rwa [List.append_nil] at happend

/-- Characters arrive up to the end, to a failure, or to a place from which the input is not
UTF-8. -/
theorem exists_eq_map_append (events : List CharEvent) :
    ∃ (cs : List Char) (tail : List CharEvent), events = cs.map char ++ tail ∧
      (tail = [] ∨ (∃ message rest, tail = .failure message :: rest) ∨
        ∃ offset rest, tail = .invalid offset :: rest) := by
  induction events with
  | nil => exact ⟨[], [], rfl, Or.inl rfl⟩
  | cons event events ih =>
    cases event with
    | char c =>
      obtain ⟨cs, tail, rfl, htail⟩ := ih
      exact ⟨c :: cs, tail, rfl, htail⟩
    | failure message => exact ⟨[], _, rfl, Or.inr (Or.inl ⟨message, events, rfl⟩)⟩
    | invalid offset => exact ⟨[], _, rfl, Or.inr (Or.inr ⟨offset, events, rfl⟩)⟩

/-- Behind characters from the front comes the rest of the text. -/
theorem text_drop {n : Nat} (hchars : events.take n = ((text events).take n).map char) :
    text (events.drop n) = (text events).drop n := by
  have hwhole : text (events.take n ++ events.drop n) =
      (text events).take n ++ text (events.drop n) := by
    rw [hchars]
    exact text_map_append _
  rw [List.take_append_drop] at hwhole
  exact List.append_cancel_left (hwhole.symm.trans (List.take_append_drop n (text events)).symm)

theorem fault?_drop {n : Nat} (hchars : events.take n = ((text events).take n).map char) :
    fault? (events.drop n) = fault? events := by
  have hwhole : fault? (events.take n ++ events.drop n) = fault? (events.drop n) := by
    rw [hchars]
    exact fault?_map_append _
  rwa [List.take_append_drop, eq_comm] at hwhole

theorem messages_drop {n : Nat} (hchars : events.take n = ((text events).take n).map char) :
    messages (events.drop n) = messages events := by
  have hwhole : messages (events.take n ++ events.drop n) = messages (events.drop n) := by
    rw [hchars]
    exact messages_map_append _
  rwa [List.take_append_drop, eq_comm] at hwhole

/-- Events are the characters of a text in order, with failures between them. -/
inductive Spells : List CharEvent → List Char → List String → Prop where
  | nil : Spells [] [] []
  | char {events : List CharEvent} {s : List Char} {messages : List String} (c : Char)
      (hrest : Spells events s messages) : Spells (.char c :: events) (c :: s) messages
  | failure {events : List CharEvent} {s : List Char} {messages : List String} (message : String)
      (hrest : Spells events s messages) :
      Spells (.failure message :: events) s (message :: messages)

namespace Spells

variable {events : List CharEvent} {s : List Char} {messages : List String}

/-- Characters in front of what arrives are in front of its text. -/
theorem map_append (cs : List Char) (hspells : Spells events s messages) :
    Spells (cs.map CharEvent.char ++ events) (cs ++ s) messages := by
  induction cs with
  | nil => exact hspells
  | cons c cs ih => exact Spells.char c ih

/-- Characters alone are their text. -/
theorem of_map (s : List Char) : Spells (s.map CharEvent.char) s [] := by
  have hspells := map_append s Spells.nil
  rwa [List.append_nil, List.append_nil] at hspells

end Spells

/-- Events spell a text with failures between its characters if nothing in them is wrong. -/
theorem spells_iff {s : List Char} {failures : List String} :
    Spells events s failures ↔
      text events = s ∧ fault? events = none ∧ messages events = failures := by
  constructor
  · intro hspells
    induction hspells with
    | nil => exact ⟨rfl, rfl, rfl⟩
    | char c _ ih => exact ⟨congrArg (c :: ·) ih.1, ih.2⟩
    | failure message _ ih => exact ⟨ih.1, ih.2.1, congrArg (message :: ·) ih.2.2⟩
  · rintro ⟨rfl, hfault, rfl⟩
    induction events with
    | nil => exact Spells.nil
    | cons event events ih =>
      cases event with
      | char c => exact Spells.char c (ih hfault)
      | failure message => exact Spells.failure message (ih hfault)
      | invalid offset => cases hfault

/-! ## From octets to characters -/

/-- The text of what arrives is what is decoded of the octets, with all failures on the way; if
some octets are wrong, it is what is decoded of those in front of them. -/
inductive Arrives (d : Utf8.Decoder) (octets : List UInt8) (failures : List String)
    (events : List CharEvent) : Prop where
  | whole {next : Utf8.Decoder} (hfeed : Utf8.feed [] d octets = .ok (text events, next))
      (hfault : fault? events = if next.owed = 0 then none else some next.start)
      (hmessages : next.owed = 0 → messages events = failures)
  | refused {front : List UInt8} {next : Utf8.Decoder} {offset : Nat} (hfront : front <+: octets)
      (hfeed : Utf8.feed [] d front = .ok (text events, next))
      (hrefused : Utf8.feed [] d octets = .error offset) (hfault : fault? events = some offset)

theorem arrives_ofArrivals {arrivals : List Arrival} (hpieces : .bytes [] ∉ arrivals)
    (d : Utf8.Decoder) :
    Arrives d (arrivals.flatMap Arrival.octets) (arrivals.filterMap Arrival.message?)
      (ofArrivals d arrivals) := by
  induction arrivals generalizing d with
  | nil =>
    have hfeed : Utf8.feed [] d [] = .ok (text (atEnd d), d) := by
      rw [atEnd]
      split <;> rfl
    refine Arrives.whole hfeed ?_ fun howed => ?_
    · rw [ofArrivals, atEnd]
      split <;> rfl
    · rw [ofArrivals, atEnd, if_pos howed]
      rfl
  | cons arrival arrivals ih =>
    have hne : Arrival.bytes [] ≠ arrival := fun heq => hpieces (heq ▸ List.mem_cons_self)
    have hrest : .bytes [] ∉ arrivals := fun hmem => hpieces (List.mem_cons_of_mem _ hmem)
    have htail := ih hrest
    cases arrival with
    | interrupted => exact htail d
    | failure message =>
      cases htail d with
      | whole hfeed hfault hmessages =>
        exact Arrives.whole hfeed hfault fun howed => congrArg (message :: ·) (hmessages howed)
      | refused hfront hfeed hrefused hfault => exact Arrives.refused hfront hfeed hrefused hfault
    | bytes octets =>
      rw [List.flatMap_cons, ofArrivals, if_neg (by simpa [List.isEmpty_iff] using hne)]
      change Arrives d (octets ++ _) (arrivals.filterMap Arrival.message?) _
      cases hfirst : Utf8.feed [] d octets with
      | error offset =>
        have hnone : Utf8.feed [] d [] = .ok (text [invalid offset], d) := rfl
        refine Arrives.refused List.nil_prefix hnone ?_ rfl
        rw [Utf8.feed_append, hfirst]
        rfl
      | ok first =>
        obtain ⟨cs, middle⟩ := first
        have hsplit : ∀ rest, Utf8.feed [] d (octets ++ rest) =
            (Utf8.feed [] middle rest).map fun second => (cs ++ second.1, second.2) := by
          intro rest
          rw [Utf8.feed_append, hfirst]
          rfl
        cases htail middle with
        | whole hfeed hfault hmessages =>
          refine Arrives.whole ?_ ((fault?_map_append cs).trans hfault) fun howed =>
            (messages_map_append cs).trans (hmessages howed)
          rw [hsplit, hfeed, text_map_append]
          rfl
        | @refused front next offset hfront hfeed hrefused hfault =>
          have hfront' : octets ++ front <+: octets ++ arrivals.flatMap Arrival.octets :=
            (List.prefix_append_right_inj octets).mpr hfront
          have hread : Utf8.feed [] d (octets ++ front) =
              .ok (text (cs.map char ++ ofArrivals middle arrivals), next) := by
            rw [hsplit, hfeed, text_map_append]
            rfl
          refine Arrives.refused hfront' hread ?_ ((fault?_map_append cs).trans hfault)
          rw [hsplit, hrefused]
          rfl

/-- What is decoded from octets spells the text that they encode. -/
theorem spells_ofArrivals {arrivals : List Arrival} {d next : Utf8.Decoder} {s : List Char}
    (hpieces : .bytes [] ∉ arrivals)
    (hfeed : Utf8.feed [] d (arrivals.flatMap Arrival.octets) = .ok (s, next))
    (hend : next.owed = 0) :
    Spells (ofArrivals d arrivals) s (arrivals.filterMap Arrival.message?) := by
  cases arrives_ofArrivals hpieces d with
  | whole hwhole hfault hmessages =>
    rw [hfeed, Except.ok.injEq, Prod.mk.injEq] at hwhole
    obtain ⟨rfl, rfl⟩ := hwhole
    rw [if_pos hend] at hfault
    exact spells_iff.mpr ⟨rfl, hfault, hmessages hend⟩
  | refused _ _ hrefused _ =>
    rw [hfeed] at hrefused
    cases hrefused

/-- Cutting an arrival keeps its octets and its message, and no piece is empty. -/
theorem split_spec (buffer : Nat) {arrival : Arrival} (hne : arrival ≠ .bytes []) :
    (arrival.split buffer).flatMap Arrival.octets = arrival.octets ∧
      (arrival.split buffer).filterMap Arrival.message? = arrival.message?.toList ∧
        .bytes [] ∉ arrival.split buffer := by
  cases arrival with
  | interrupted => simp [Arrival.split, Arrival.octets, Arrival.message?]
  | failure message => simp [Arrival.split, Arrival.octets, Arrival.message?]
  | bytes octets =>
    cases octets with
    | nil => exact absurd rfl hne
    | cons b bs =>
      obtain ⟨hflatten, hpieces⟩ := Arrival.flatten_pieces buffer (b :: bs)
      have hsplit : (Arrival.bytes (b :: bs)).split buffer =
          (Arrival.pieces buffer (b :: bs)).map .bytes := rfl
      rw [hsplit]
      refine ⟨?_, ?_, fun hmem => ?_⟩
      · rw [List.flatMap_map]
        change (Arrival.pieces buffer (b :: bs)).flatMap id = _
        rw [List.flatMap_id, hflatten]
        rfl
      · rw [List.filterMap_map]
        exact List.filterMap_eq_nil_iff.mpr fun _ _ => rfl
      · obtain ⟨piece, hpiece, heq⟩ := List.mem_map.mp hmem
        cases heq
        exact hpieces [] hpiece rfl

/-- Cutting octets for a buffer keeps them. -/
theorem octets_split (buffer : Nat) {arrivals : List Arrival} (hpieces : .bytes [] ∉ arrivals) :
    (arrivals.flatMap (Arrival.split buffer)).flatMap Arrival.octets =
        arrivals.flatMap Arrival.octets ∧
      .bytes [] ∉ arrivals.flatMap (Arrival.split buffer) := by
  have hspec : ∀ arrival ∈ arrivals, arrival ≠ .bytes [] := fun arrival hmem heq =>
    hpieces (heq ▸ hmem)
  refine ⟨?_, fun hmem => ?_⟩
  · rw [List.flatMap_assoc]
    exact List.flatMap_congr fun arrival harrival => (split_spec buffer (hspec arrival harrival)).1
  · obtain ⟨arrival, harrival, hpiece⟩ := List.mem_flatMap.mp hmem
    exact (split_spec buffer (hspec arrival harrival)).2.2 hpiece

/-- What arrives from a source that is asked for a buffer of octets each time spells the
text whose octets it delivers. -/
theorem spells_ofSource (buffer : Nat) {arrivals : List Arrival} {text : String}
    (hpieces : .bytes [] ∉ arrivals)
    (hoctets : arrivals.flatMap Arrival.octets = text.toUTF8.data.toList) :
    Spells (ofSource buffer arrivals) text.toList (arrivals.filterMap Arrival.message?) := by
  obtain ⟨hsame, hsplit⟩ := octets_split buffer hpieces
  have hmessages : (arrivals.flatMap (Arrival.split buffer)).filterMap Arrival.message? =
      arrivals.filterMap Arrival.message? := by
    rw [List.filterMap_flatMap, List.filterMap_eq_flatMap_toList]
    refine List.flatMap_congr fun arrival harrival => ?_
    exact (split_spec buffer fun heq => hpieces (heq ▸ harrival)).2.1
  obtain ⟨next, hfeed⟩ := Utf8.feed_flatMap_encodeChar 0 text.toList
  rw [← toUTF8_eq_flatMap, ← hoctets, ← hsame] at hfeed
  rw [← hmessages]
  exact spells_ofArrivals hsplit hfeed rfl

end CharEvent
end Munch

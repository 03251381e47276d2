import Munch.Text.Arrival

/-!
# Decoding a text

The octets of a text are decoded to the text, in whatever pieces they arrive.

Main results:

- Theorem {lit}`Utf8.feed_append`: octets can be decoded in two parts.
- Theorem {lit}`Utf8.feed_encodeChar`: the octets of a character are decoded to it.
- Theorem {lit}`CharEvent.ofSource_toUTF8`: a text arrives as its characters.
-/

namespace Munch
namespace Utf8

variable {d d' : Decoder} {b : UInt8} {bs cs : List UInt8} {chars : List Char} {c : Char}

/-! ## Decoding in parts -/

/-- Characters completed before stay in front. -/
theorem feed_completed (completed : List Char) (d : Decoder) (bs : List UInt8) :
    feed completed d bs =
      (feed [] d bs).map fun result => (completed.reverse ++ result.1, result.2) := by
  induction bs generalizing completed d with
  | nil => simp [feed, Except.map]
  | cons b bs ih =>
    simp only [feed]
    split
    · rfl
    · exact ih completed _
    · rename_i c d _
      rw [ih (c :: completed) d, ih [c] d]
      cases feed [] d bs with
      | error offset => rfl
      | ok result => simp [Except.map]

/-- Octets can be decoded in two parts. -/
theorem feed_append (d : Decoder) (bs cs : List UInt8) :
    feed [] d (bs ++ cs) =
      (feed [] d bs).bind fun first =>
        (feed [] first.2 cs).map fun second => (first.1 ++ second.1, second.2) := by
  induction bs generalizing d with
  | nil =>
    simp only [List.nil_append, feed, List.reverse_nil, Except.bind]
    cases feed [] d cs <;> rfl
  | cons b bs ih =>
    rw [List.cons_append]
    simp only [feed]
    split
    · rfl
    · exact ih _
    · rename_i c d _
      rw [feed_completed [c] d (bs ++ cs), feed_completed [c] d bs, ih]
      cases feed [] d bs with
      | error offset => rfl
      | ok first =>
        simp only [Except.map, Except.bind]
        cases feed [] first.2 cs with
        | error offset => rfl
        | ok second => simp

/-! ## One character -/

theorem toNat_ofNat {n : Nat} (h : n < 256) : (UInt8.ofNat n).toNat = n :=
  UInt8.toNat_ofNat_of_lt' h

/-- The first octet of two is followed by one more. -/
theorem octet_two {start n : Nat} (hlow : 2 ≤ n) (hhigh : n < 32) :
    octet (.between start) (UInt8.ofNat (n + 0xc0)) =
      some (none, ⟨start, 1, 1, 0x80, 0xbf, n⟩) := by
  have hb : (UInt8.ofNat (n + 0xc0)).toNat = n + 0xc0 := toNat_ofNat (by omega)
  simp only [octet, firstOctet, Decoder.between, Decoder.opened, hb, if_true]
  rw [if_neg (by omega), if_neg (by omega), if_pos (by omega), Nat.add_sub_cancel]

/-- The first octet of three is followed by two more, which exclude surrogates and numbers
that two octets are enough for. -/
theorem octet_three {start n : Nat} (hhigh : n < 16) :
    octet (.between start) (UInt8.ofNat (n + 0xe0)) =
      some (none,
        ⟨start, 1, 2, if n = 0 then 0xa0 else 0x80, if n = 13 then 0x9f else 0xbf, n⟩) := by
  have hb : (UInt8.ofNat (n + 0xe0)).toNat = n + 0xe0 := toNat_ofNat (by omega)
  simp only [octet, firstOctet, Decoder.between, Decoder.opened, hb, if_true]
  rw [if_neg (by omega), if_neg (by omega), if_neg (by omega)]
  by_cases hzero : n = 0
  · subst hzero
    rfl
  · by_cases hthirteen : n = 13
    · subst hthirteen
      rfl
    · rw [if_neg (by omega), if_neg (by omega), if_pos (by omega), if_neg hzero,
        if_neg hthirteen, Nat.add_sub_cancel]

/-- The first octet of four is followed by three more, which exclude numbers that are too
large or that three octets are enough for. -/
theorem octet_four {start n : Nat} (hhigh : n ≤ 4) :
    octet (.between start) (UInt8.ofNat (n + 0xf0)) =
      some (none,
        ⟨start, 1, 3, if n = 0 then 0x90 else 0x80, if n = 4 then 0x8f else 0xbf, n⟩) := by
  have hb : (UInt8.ofNat (n + 0xf0)).toNat = n + 0xf0 := toNat_ofNat (by omega)
  simp only [octet, firstOctet, Decoder.between, Decoder.opened, hb, if_true]
  rw [if_neg (by omega), if_neg (by omega), if_neg (by omega), if_neg (by omega),
    if_neg (by omega), if_neg (by omega)]
  by_cases hzero : n = 0
  · subst hzero
    rfl
  · by_cases hfour : n = 4
    · subst hfour
      rfl
    · rw [if_neg (by omega), if_pos (by omega), if_neg hzero, if_neg hfour, Nat.add_sub_cancel]

/-- A later octet in the allowed range adds six bits. -/
theorem octet_later {start seen owed low high value n : Nat} (hn : n < 64) (howed : owed ≠ 0)
    (hlow : low ≤ n + 0x80) (hhigh : n + 0x80 ≤ high) :
    octet ⟨start, seen, owed, low, high, value⟩ (UInt8.ofNat (n + 0x80)) =
      if owed = 1 then some (some (Char.ofNat (value * 64 + n)), .between (start + seen + 1))
      else some (none, ⟨start, seen + 1, owed - 1, 0x80, 0xbf, value * 64 + n⟩) := by
  have hb : (UInt8.ofNat (n + 0x80)).toNat = n + 0x80 := toNat_ofNat (by omega)
  simp only [octet, laterOctet, hb]
  rw [if_neg howed, if_pos ⟨hlow, hhigh⟩, Nat.add_sub_cancel]

/-- The code points are those below the limit that are not surrogates. -/
theorem toNat_bounds (c : Char) :
    c.val.toNat < 0xd800 ∨ 0xdfff < c.val.toNat ∧ c.val.toNat < 0x110000 :=
  c.valid

theorem ofNat_val (c : Char) : Char.ofNat c.val.toNat = c :=
  Char.ofNat_toNat c

/-- The octets of a character are decoded to it. -/
theorem feed_encodeChar (start : Nat) (c : Char) :
    ∃ next, feed [] (.between start) (String.utf8EncodeChar c) = .ok ([c], .between next) := by
  have hbounds := toNat_bounds c
  have hc := ofNat_val c
  rw [String.utf8EncodeChar]
  generalize c.val.toNat = v at hbounds hc ⊢
  split
  · rename_i hone
    have hb : (UInt8.ofNat v).toNat = v := toNat_ofNat (by omega)
    refine ⟨start + 1, ?_⟩
    rw [feed, octet_ascii start (by rw [hb]; omega), hb, hc]
    rfl
  · split
    · rename_i hone htwo
      have hlast : v % 64 < 64 := Nat.mod_lt _ (by decide)
      have hvalue : v / 64 % 32 * 64 + v % 64 = v := by omega
      refine ⟨start + 1 + 1, ?_⟩
      rw [feed, octet_two (by omega) (by omega)]
      simp only
      rw [feed, octet_later hlast (by decide) (by omega) (by omega), if_pos rfl, hvalue, hc]
      rfl
    · split
      · rename_i hone htwo hthree
        have hsecond : v / 64 % 64 < 64 := Nat.mod_lt _ (by decide)
        have hlast : v % 64 < 64 := Nat.mod_lt _ (by decide)
        have hvalue : (v / 4096 % 16 * 64 + v / 64 % 64) * 64 + v % 64 = v := by omega
        refine ⟨start + 2 + 1, ?_⟩
        rw [feed, octet_three (by omega)]
        simp only
        rw [feed, octet_later hsecond (by decide) (by split <;> omega) (by split <;> omega),
          if_neg (by decide)]
        simp only
        rw [feed, octet_later hlast (by decide) (by omega) (by omega), if_pos rfl, hvalue, hc]
        rfl
      · rename_i hone htwo hthree
        have hsecond : v / 4096 % 64 < 64 := Nat.mod_lt _ (by decide)
        have hthird : v / 64 % 64 < 64 := Nat.mod_lt _ (by decide)
        have hlast : v % 64 < 64 := Nat.mod_lt _ (by decide)
        have hvalue :
            ((v / 262144 % 8 * 64 + v / 4096 % 64) * 64 + v / 64 % 64) * 64 + v % 64 = v := by
          omega
        refine ⟨start + 3 + 1, ?_⟩
        rw [feed, octet_four (by omega)]
        simp only
        rw [feed, octet_later hsecond (by decide) (by split <;> omega) (by split <;> omega),
          if_neg (by decide)]
        simp only
        rw [feed, octet_later hthird (by decide) (by omega) (by omega), if_neg (by decide)]
        simp only
        rw [feed, octet_later hlast (by decide) (by omega) (by omega), if_pos rfl, hvalue, hc]
        rfl

/-- The octets of a text are decoded to it. -/
theorem feed_flatMap_encodeChar (start : Nat) (s : List Char) :
    ∃ next, feed [] (.between start) (s.flatMap String.utf8EncodeChar) =
      .ok (s, .between next) := by
  induction s generalizing start with
  | nil => exact ⟨start, rfl⟩
  | cons c s ih =>
    obtain ⟨middle, hfirst⟩ := feed_encodeChar start c
    obtain ⟨next, hrest⟩ := ih middle
    refine ⟨next, ?_⟩
    rw [List.flatMap_cons, feed_append, hfirst]
    simp only [Except.bind, hrest]
    rfl

end Utf8

/-! ## Pieces -/

/-- The pieces of an arrival make it up, and none is empty. -/
theorem Arrival.flatten_pieces (size : Nat) (octets : List UInt8) :
    (Arrival.pieces size octets).flatten = octets ∧
      ∀ piece ∈ Arrival.pieces size octets, piece ≠ [] := by
  fun_induction Arrival.pieces size octets with
  | case1 => exact ⟨rfl, fun piece hpiece => by cases hpiece⟩
  | case2 b bs ih =>
    refine ⟨?_, List.forall_mem_cons.mpr ⟨List.cons_ne_nil _ _, ih.2⟩⟩
    rw [List.flatten_cons, ih.1, List.cons_append, List.take_append_drop]

namespace CharEvent

/-- Octets that are decoded as a whole arrive as their characters, however they are cut. -/
theorem ofArrivals_pieces {d next : Utf8.Decoder} {chars : List Char} {pieces : List (List UInt8)}
    (hpieces : ∀ piece ∈ pieces, piece ≠ [])
    (hfeed : Utf8.feed [] d pieces.flatten = .ok (chars, next)) :
    ofArrivals d (pieces.map Arrival.bytes) = chars.map char ++ atEnd next := by
  induction pieces generalizing d chars with
  | nil =>
    cases hfeed
    rfl
  | cons piece pieces ih =>
    obtain ⟨hpiece, hrest⟩ := List.forall_mem_cons.mp hpieces
    rw [List.flatten_cons, Utf8.feed_append] at hfeed
    rw [List.map_cons, ofArrivals, if_neg (by rwa [List.isEmpty_iff])]
    cases hfirst : Utf8.feed [] d piece with
    | error offset =>
      rw [hfirst] at hfeed
      cases hfeed
    | ok first =>
      rw [hfirst] at hfeed
      simp only [Except.bind] at hfeed ⊢
      cases hsecond : Utf8.feed [] first.2 pieces.flatten with
      | error offset =>
        rw [hsecond] at hfeed
        cases hfeed
      | ok second =>
        rw [hsecond] at hfeed
        cases hfeed
        rw [ih hrest hsecond, List.map_append, List.append_assoc]

/-- The octets of a text are those of its characters. -/
theorem toUTF8_eq_flatMap (text : String) :
    text.toUTF8.data.toList = text.toList.flatMap String.utf8EncodeChar := by
  rw [String.toUTF8_eq_toByteArray, ← String.utf8Encode_toList, List.utf8Encode,
    List.data_toByteArray]

/-- A text arrives as its characters, whatever the size of the buffer. -/
theorem ofSource_toUTF8 (buffer : Nat) (text : String) :
    ofSource buffer [.bytes text.toUTF8.data.toList] = text.toList.map char := by
  obtain ⟨next, hfeed⟩ := Utf8.feed_flatMap_encodeChar 0 text.toList
  rw [← toUTF8_eq_flatMap] at hfeed
  rw [ofSource, List.flatMap_cons, List.flatMap_nil, List.append_nil]
  cases hoctets : text.toUTF8.data.toList with
  | nil =>
    rw [hoctets, Utf8.feed, Except.ok.injEq, Prod.mk.injEq] at hfeed
    rw [← hfeed.1]
    rfl
  | cons b bs =>
    obtain ⟨hflatten, hpieces⟩ := Arrival.flatten_pieces buffer (b :: bs)
    rw [hoctets, ← hflatten] at hfeed
    have harrivals := ofArrivals_pieces hpieces hfeed
    have hend : atEnd (.between next) = [] := rfl
    rw [hend, List.append_nil] at harrivals
    exact harrivals

end CharEvent
end Munch

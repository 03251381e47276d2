import Mathlib.Algebra.Group.Nat.Defs
import Munch.Proofs.Text.Utf8

/-!
# What a decoder accepts

A decoder accepts octets as long as they begin a text, and what it gives is the text.  Where it
refuses one, the octets before the current character are the longest valid beginning of all, and
so they are at the end of octets that stop within a character.

Main results:

- Theorem {lit}`Utf8.Held.taken`: what one octet does to the octets that a decoder holds.
- Theorem {lit}`Utf8.decodes_feed`: the characters that are decoded are those whose octets were
  read.
- Theorems {lit}`Utf8.longestValid_of_feed` and {lit}`Utf8.exists_longestValid_of_feed_error`:
  where decoding ends, the octets of these are the longest valid beginning.
-/

namespace Munch
namespace Utf8

/-! ## The octets of a character -/

/-- The octets of a number: six bits in each of some later ones, and the bits above in the
first. -/
def spell (first value : Nat) : Nat → List UInt8
  | 0 => [UInt8.ofNat (value + first)]
  | later + 1 => spell first (value / 64) later ++ [UInt8.ofNat (value % 64 + 0x80)]

/-- What is added to the first octet of a character with some later ones. -/
def mark : Nat → Nat
  | 0 => 0
  | 1 => 0xc0
  | 2 => 0xe0
  | 3 => 0xf0
  | _ => 0

/-- A number is that of a character which has so many later octets. -/
inductive Fits : Nat → Nat → Prop where
  | one {v : Nat} (hlt : v < 0x80) : Fits 0 v
  | two {v : Nat} (hle : 0x80 ≤ v) (hlt : v < 0x800) : Fits 1 v
  | three {v : Nat} (hle : 0x800 ≤ v) (hlt : v < 0xd800 ∨ 0xdfff < v ∧ v < 0x10000) : Fits 2 v
  | four {v : Nat} (hle : 0x10000 ≤ v) (hlt : v < 0x110000) : Fits 3 v

/-- A value that fits the form of an encoding is a character. -/
theorem Fits.isValidChar {later v : Nat} (hfits : Fits later v) : v.isValidChar := by
  cases hfits with
  | one hlt => exact Or.inl (by omega)
  | two hle hlt => exact Or.inl (by omega)
  | three hle hlt => exact hlt.imp id fun h => ⟨h.1, by omega⟩
  | four hle hlt => exact Or.inr ⟨by omega, hlt⟩

/-- A character has the octets of its number. -/
theorem encodeChar_of_fits {later v : Nat} (hfits : Fits later v) :
    String.utf8EncodeChar (Char.ofNat v) = spell (mark later) v later := by
  have hv : (Char.ofNat v).val.toNat = v := by
    rw [Char.ofNat, dif_pos hfits.isValidChar]
    rfl
  simp only [String.utf8EncodeChar, hv]
  cases hfits with
  | one hlt =>
    rw [if_pos (by omega)]
    rfl
  | two hle hlt =>
    rw [if_neg (by omega), if_pos (by omega), Nat.mod_eq_of_lt (by omega)]
    rfl
  | three hle hlt =>
    have hfirst : v / 4096 < 16 := by omega
    rw [if_neg (by omega), if_neg (by omega), if_pos (by omega), Nat.mod_eq_of_lt hfirst]
    simp only [spell, mark, Nat.div_div_eq_div_mul]
    rfl
  | four hle hlt =>
    have hfirst : v / 262144 < 8 := by omega
    rw [if_neg (by omega), if_neg (by omega), if_neg (by omega), Nat.mod_eq_of_lt hfirst]
    simp only [spell, mark, Nat.div_div_eq_div_mul]
    rfl

/-! ## Octets of an unfinished character -/

/-- A decoder within a character holds its octets so far, and every number that the next octets
can make of it is a character of that size. -/
structure Within (d : Decoder) (octets : List UInt8) : Prop where
  owed_pos : 0 < d.owed
  seen_pos : 0 < d.seen
  octets_eq : octets = spell (mark (d.seen - 1 + d.owed)) d.value (d.seen - 1)
  low_le : 0x80 ≤ d.low
  high_lt : d.high < 0xc0
  fits : ∀ v, (d.value * 64 + (d.low - 0x80)) * 64 ^ (d.owed - 1) ≤ v →
    v < (d.value * 64 + (d.high - 0x80) + 1) * 64 ^ (d.owed - 1) → Fits (d.seen - 1 + d.owed) v

/-- The octets that a decoder holds: none between two characters. -/
inductive Held : Decoder → List UInt8 → Prop where
  | between (n : Nat) : Held (.between n) []
  | within {d : Decoder} {octets : List UInt8} (hwithin : Within d octets) : Held d octets

/-- A first octet opens an encoding whose values fit. -/
theorem within_opened {start owed low high value : Nat} {b : UInt8} (howed : 0 < owed)
    (hb : b.toNat = value + mark owed) (hlow : 0x80 ≤ low) (hhigh : high < 0xc0)
    (hfits : ∀ v, (value * 64 + (low - 0x80)) * 64 ^ (owed - 1) ≤ v →
      v < (value * 64 + (high - 0x80) + 1) * 64 ^ (owed - 1) → Fits owed v) :
    Within ⟨start, 1, owed, low, high, value⟩ [b] where
  owed_pos := howed
  seen_pos := Nat.one_pos
  octets_eq := by
    simp only [Nat.sub_self, Nat.zero_add, spell, ← hb, UInt8.ofNat_toNat]
  low_le := hlow
  high_lt := hhigh
  fits := by
    simpa only [Nat.sub_self, Nat.zero_add] using hfits

/-- What one octet does to those of a character: they are held then, or the character is
complete. -/
inductive Taken (d : Decoder) (octets : List UInt8) : Option Char × Decoder → Prop where
  | more {d' : Decoder} (hwithin : Within d' octets) (hstart : d'.start = d.start) :
      Taken d octets (none, d')
  | complete {c : Char} (hencode : String.utf8EncodeChar c = octets) :
      Taken d octets (some c, .between (d.start + octets.length))

/-- Between two characters an octet is a character, or opens one. -/
theorem taken_of_between {n : Nat} {b : UInt8} {result : Option Char × Decoder}
    (hoctet : octet (.between n) b = some result) : Taken (.between n) [b] result := by
  change firstOctet (.between n) b.toNat = _ at hoctet
  have hb := b.toNat_lt
  unfold firstOctet at hoctet
  split at hoctet
  · rename_i hascii
    cases hoctet
    refine Taken.complete ((encodeChar_of_fits (Fits.one hascii)).trans ?_)
    simp only [spell, mark, Nat.add_zero, UInt8.ofNat_toNat]
  -- The other branches differ only in the bounds on the next octet.
  repeat' split at hoctet
  all_goals cases hoctet
  all_goals
    refine Taken.more (within_opened (by decide) (by rw [mark]; omega) (by decide) (by decide)
      fun v hle hlt => ?_) rfl
  · exact Fits.two (by omega) (by omega)
  · exact Fits.three (by omega) (by omega)
  · exact Fits.three (by omega) (by omega)
  · exact Fits.three (by omega) (by omega)
  · exact Fits.four (by omega) (by omega)
  · exact Fits.four (by omega) (by omega)
  · exact Fits.four (by omega) (by omega)

/-- As many octets are held as were seen. -/
theorem Within.length_octets {d : Decoder} {octets : List UInt8} (hwithin : Within d octets) :
    octets.length = d.seen := by
  have hlength : ∀ first value later, (spell first value later).length = later + 1 := by
    intro first value later
    induction later generalizing value with
    | zero => rfl
    | succ later ih => rw [spell, List.length_append, ih, List.length_singleton]
  rw [hwithin.octets_eq, hlength, Nat.sub_add_cancel hwithin.seen_pos]

/-- Within a character an octet goes on with it, or ends it. -/
theorem Within.taken {d : Decoder} {octets : List UInt8} {b : UInt8}
    {result : Option Char × Decoder} (hwithin : Within d octets)
    (hoctet : octet d b = some result) : Taken d (octets ++ [b]) result := by
  have howed := hwithin.owed_pos
  have hseen := hwithin.seen_pos
  have hlow := hwithin.low_le
  have hhigh := hwithin.high_lt
  rw [octet, if_neg (by omega), laterOctet] at hoctet
  split at hoctet
  · rename_i hrange
    simp only at hoctet
    -- The octet adds six bits to the number.
    obtain ⟨value, hvalue⟩ : ∃ value, value = d.value * 64 + (b.toNat - 0x80) := ⟨_, rfl⟩
    rw [← hvalue] at hoctet
    have hleast : d.value * 64 + (d.low - 0x80) ≤ value := by omega
    have hmost : value + 1 ≤ d.value * 64 + (d.high - 0x80) + 1 := by omega
    have hspell : octets ++ [b] = spell (mark (d.seen - 1 + d.owed)) value d.seen := by
      obtain ⟨k, hk⟩ : ∃ k, d.seen = k + 1 := ⟨d.seen - 1, by omega⟩
      have hdiv : value / 64 = d.value := by omega
      have hmod : value % 64 + 0x80 = b.toNat := by omega
      rw [hwithin.octets_eq, hk, spell, hdiv, hmod, UInt8.ofNat_toNat]
      rfl
    split at hoctet
    · rename_i hlast
      cases hoctet
      have hsize : d.seen - 1 + d.owed = d.seen := by omega
      have hfits := hwithin.fits value (by rw [hlast]; omega) (by rw [hlast]; omega)
      rw [hsize] at hspell hfits
      have hplace : d.start + d.seen + 1 = d.start + (octets ++ [b]).length := by
        rw [List.length_append, hwithin.length_octets]
        rfl
      rw [hplace]
      exact Taken.complete ((encodeChar_of_fits hfits).trans hspell.symm)
    · rename_i hmore
      cases hoctet
      have hsize : d.seen + 1 - 1 + (d.owed - 1) = d.seen - 1 + d.owed := by omega
      have hpower : ∀ x, x * 64 ^ (d.owed - 1) = x * 64 * 64 ^ (d.owed - 1 - 1) := by
        intro x
        have hless : d.owed - 1 = (d.owed - 1 - 1).succ := by omega
        rw [Nat.mul_assoc, ← Nat.pow_succ', ← hless]
      refine Taken.more ⟨Nat.sub_pos_of_lt (by omega), Nat.succ_pos _, ?_, Nat.le_refl _,
        Nat.lt_succ_self _, fun v hle hlt => ?_⟩ rfl
      · rw [hsize, Nat.add_sub_cancel, hspell]
      · simp only [Nat.sub_self, Nat.add_zero] at hle hlt
        rw [hsize]
        refine hwithin.fits v ?_ ?_
        · rw [hpower]
          exact Nat.le_trans (Nat.mul_le_mul_right _ (Nat.mul_le_mul_right 64 hleast)) hle
        · rw [hpower]
          exact Nat.lt_of_lt_of_le hlt (Nat.mul_le_mul_right _ (by omega))
  · cases hoctet

/-- An octet behind those that are held is taken with them. -/
theorem Held.taken {d : Decoder} {octets : List UInt8} {b : UInt8}
    {result : Option Char × Decoder} (hheld : Held d octets) (hoctet : octet d b = some result) :
    Taken d (octets ++ [b]) result := by
  cases hheld with
  | between n => exact taken_of_between hoctet
  | within hwithin => exact hwithin.taken hoctet

/-! ## Octets of a text -/

/-- The octets of a text. -/
def encode (s : List Char) : List UInt8 := s.flatMap String.utf8EncodeChar

@[simp]
theorem encode_cons (c : Char) (s : List Char) :
    encode (c :: s) = String.utf8EncodeChar c ++ encode s :=
  List.flatMap_cons

/-- Texts behind each other are encoded one after the other. -/
theorem encode_append (s other : List Char) : encode (s ++ other) = encode s ++ encode other :=
  List.flatMap_append

/-- Only the empty text has no octets. -/
theorem encode_eq_nil {s : List Char} (hempty : encode s = []) : s = [] := by
  cases s with
  | nil => rfl
  | cons c s =>
    rw [encode_cons, List.append_eq_nil_iff] at hempty
    exact absurd hempty.1 (String.utf8EncodeChar_ne_nil)

/-- How decoding ends: the octets that were held and those that were read are those of the
characters and those that are held then; or a character follows whose octets are refused. -/
inductive Decodes (d : Decoder) (octets : List UInt8) :
    Except Nat (List Char × Decoder) → Prop where
  | read {s : List Char} {next : Decoder} {held : List UInt8} (hheld : Held next held)
      (hoctets : octets = encode s ++ held) (hstart : next.start = d.start + (encode s).length) :
      Decodes d octets (.ok (s, next))
  | refused {s : List Char} {offset : Nat} (hoctets : encode s <+: octets)
      (hoffset : offset = d.start + (encode s).length) : Decodes d octets (.error offset)

/-- Feeding octets decodes them as long as they are valid. -/
theorem decodes_feed {d : Decoder} {held : List UInt8} (hheld : Held d held) (bs : List UInt8) :
    Decodes d (held ++ bs) (feed [] d bs) := by
  induction bs generalizing d held with
  | nil => exact Decodes.read (s := []) hheld (List.append_nil _) rfl
  | cons b bs ih =>
    rw [feed]
    cases hoctet : octet d b with
    | none => exact Decodes.refused (s := []) List.nil_prefix rfl
    | some result =>
      cases hheld.taken hoctet with
      | more hwithin hstart =>
        have hrest := ih (Held.within hwithin)
        rw [List.append_assoc, List.singleton_append] at hrest
        simp only
        generalize feed [] _ bs = result at hrest ⊢
        cases hrest with
        | read hheld hoctets hnext => exact Decodes.read hheld hoctets (hstart ▸ hnext)
        | refused hoctets hoffset => exact Decodes.refused hoctets (hstart ▸ hoffset)
      | @complete c hencode =>
        have hrest := ih (Held.between (d.start + (held ++ [b]).length))
        have hsplit : held ++ b :: bs = String.utf8EncodeChar c ++ bs := by
          rw [hencode, List.append_assoc]
          rfl
        rw [List.nil_append] at hrest
        rw [← hencode] at hrest ⊢
        simp only [feed_completed [_], hsplit]
        have hadd : ∀ s, d.start + (String.utf8EncodeChar c).length + (encode s).length =
            d.start + (encode (c :: s)).length := by
          intro s
          rw [encode_cons, List.length_append, Nat.add_assoc]
        generalize feed [] _ bs = result at hrest ⊢
        cases hrest with
        | @read s next rest hheld hoctets hnext =>
          refine Decodes.read (s := c :: s) hheld ?_ (hnext.trans (hadd s))
          rw [encode_cons, List.append_assoc, hoctets]
        | @refused s offset hoctets hoffset =>
          refine Decodes.refused (s := c :: s) ?_ (hoffset.trans (hadd s))
          rw [encode_cons]
          exact (List.prefix_append_right_inj _).mpr hoctets

variable {octets : List UInt8} {s other : List Char}

/-- The octets of a text are decoded to it, and the decoder is behind them then. -/
theorem feed_encode (start : Nat) (s : List Char) :
    feed [] (.between start) (encode s) = .ok (s, .between (start + (encode s).length)) := by
  obtain ⟨next, hfeed⟩ := feed_flatMap_encodeChar start s
  have hdecodes := decodes_feed (Held.between start) (encode s)
  rw [encode, hfeed] at hdecodes ⊢
  cases hdecodes with
  | read _ _ hstart => rw [show next = _ from hstart]; rfl

/-- What encodes a text is decoded to it, and the rest behind it. -/
theorem feed_encode_append (start : Nat) (s : List Char) (rest : List UInt8) :
    feed [] (.between start) (encode s ++ rest) =
      (feed [] (.between (start + (encode s).length)) rest).map
        fun result => (s ++ result.1, result.2) := by
  rw [feed_append, feed_encode]
  rfl

/-- A text whose octets come first is decoded first. -/
theorem prefix_of_feed {start : Nat} {octets : List UInt8} {s other : List Char} {next : Decoder}
    (hbegins : encode other <+: octets) (hfeed : feed [] (.between start) octets = .ok (s, next)) :
    other <+: s := by
  obtain ⟨rest, rfl⟩ := hbegins
  rw [feed_encode_append] at hfeed
  cases hrest : feed [] (.between (start + (encode other).length)) rest with
  | error offset =>
    rw [hrest] at hfeed
    cases hfeed
  | ok result =>
    rw [hrest] at hfeed
    cases hfeed
    exact List.prefix_append _ _

/-- A beginning of a text has no more octets. -/
theorem length_encode_le (hbegins : other <+: s) : (encode other).length ≤ (encode s).length := by
  obtain ⟨rest, rfl⟩ := hbegins
  rw [encode_append, List.length_append]
  exact Nat.le_add_right _ _

/-! ## The longest valid beginning -/

/-- The octets of a text are the longest valid beginning of some octets. -/
structure LongestValid (octets : List UInt8) (s : List Char) : Prop where
  begins : encode s <+: octets
  longest : ∀ other, encode other <+: octets → (encode other).length ≤ (encode s).length

/-- Each text whose octets come first begins the longest. -/
theorem LongestValid.prefix_of_begins (hvalid : LongestValid octets s)
    (hbegins : encode other <+: octets) : other <+: s :=
  prefix_of_feed (List.prefix_of_prefix_length_le hbegins hvalid.begins
    (hvalid.longest other hbegins)) (feed_encode 0 s)

/-- There is one longest valid beginning only. -/
theorem LongestValid.unique (hvalid : LongestValid octets s) (hother : LongestValid octets other) :
    s = other := by
  have hfirst := hother.prefix_of_begins hvalid.begins
  exact hfirst.eq_of_length_le (hvalid.prefix_of_begins hother.begins).length_le

/-- All of a text is the longest valid beginning of its octets. -/
theorem longestValid_encode (s : List Char) : LongestValid (encode s) s :=
  ⟨List.prefix_refl _, fun _ hbegins => hbegins.length_le⟩

/-- What is decoded is the longest valid beginning.  There are no more octets unless the decoder is
within a character. -/
theorem longestValid_of_feed {next : Decoder}
    (hfeed : feed [] (.between 0) octets = .ok (s, next)) :
    LongestValid octets s ∧ next.start = (encode s).length ∧
      (next.owed = 0 ↔ ∃ other, octets = encode other) := by
  have hdecodes := decodes_feed (Held.between 0) octets
  rw [List.nil_append, hfeed] at hdecodes
  cases hdecodes with
  | @read _ _ held hheld hoctets hstart =>
    refine ⟨⟨⟨held, hoctets.symm⟩, fun other hbegins =>
      length_encode_le (prefix_of_feed hbegins hfeed)⟩, hstart.trans (Nat.zero_add _), ?_, ?_⟩
    · intro howed
      cases hheld with
      | between n => exact ⟨s, hoctets.trans (List.append_nil _)⟩
      | within hwithin => exact absurd howed (Nat.ne_of_gt hwithin.owed_pos)
    · rintro ⟨other, rfl⟩
      rw [feed_encode, Except.ok.injEq, Prod.mk.injEq] at hfeed
      rw [← hfeed.2]
      rfl

/-- Where an octet is refused, the longest valid beginning is in front of its character, and the
octets are not valid. -/
theorem exists_longestValid_of_feed_error {offset : Nat}
    (hfeed : feed [] (.between 0) octets = .error offset) :
    ∃ s, LongestValid octets s ∧ offset = (encode s).length ∧ ¬∃ other, octets = encode other := by
  have hdecodes := decodes_feed (Held.between 0) octets
  rw [List.nil_append, hfeed] at hdecodes
  cases hdecodes with
  | @refused s _ hoctets hoffset =>
    refine ⟨s, ⟨hoctets, ?_⟩, hoffset.trans (Nat.zero_add _), ?_⟩
    · rintro other ⟨rest, rfl⟩
      rw [feed_encode_append] at hfeed
      have hrest := decodes_feed (Held.between (0 + (encode other).length)) rest
      rw [List.nil_append] at hrest
      generalize feed [] (.between (0 + (encode other).length)) rest = result at hfeed hrest
      cases hrest with
      | read => cases hfeed
      | refused _ hlater =>
        cases hfeed
        have hplace : (Decoder.between (0 + (encode other).length)).start =
            0 + (encode other).length := rfl
        have hzero : (Decoder.between 0).start = 0 := rfl
        omega
    · rintro ⟨other, rfl⟩
      rw [feed_encode] at hfeed
      cases hfeed

/-- Octets have a longest valid beginning. -/
theorem exists_longestValid (octets : List UInt8) : ∃ s, LongestValid octets s := by
  cases hfeed : feed [] (.between 0) octets with
  | ok result => exact ⟨result.1, (longestValid_of_feed hfeed).1⟩
  | error offset =>
    obtain ⟨s, hvalid, -⟩ := exists_longestValid_of_feed_error hfeed
    exact ⟨s, hvalid⟩

end Utf8
end Munch

import Mathlib.Data.List.Basic
import Munch.Json.Reader
import Munch.Json.Writer

/-!
# Reading what was written

A value that is written without blanks is read as the same value.  Each reader takes what the
writer of its part wrote from the front of a text and leaves what is behind.

Main results:

- Theorem {lit}`Json.finds_textAfterQuote`: a text is read as it is written.
- Theorem {lit}`Json.finds_decimal`: so is a number.
- Theorem {lit}`Json.finds_value`: so is every value.
- Theorem {lit}`Json.parse?_compact`: a whole text is read as the value that it writes.
-/

namespace Munch
namespace Json

/-- A reader takes a value from the front of a text and leaves the rest. -/
def Finds {α : Type} {n : Nat} (x : Option (Read α n)) (a : α) (rest : List Char) : Prop :=
  ∃ r, x = some r ∧ r.value = a ∧ r.rest = rest

section Finds

variable {α β : Type} {m n : Nat} {a : α} {b : β} {rest rest' : List Char}

theorem finds_some (h : rest.length < n) : Finds (some (⟨a, rest, h⟩ : Read α n)) a rest :=
  ⟨_, rfl, rfl, rfl⟩

/-- A reader that goes on where another one stopped. -/
theorem Finds.bind {x : Option (Read α m)} {f : Read α m → Option (Read β n)}
    (hx : Finds x a rest) (hf : ∀ h, Finds (f ⟨a, rest, h⟩) b rest') : Finds (x >>= f) b rest' := by
  obtain ⟨⟨_, _, h⟩, rfl, rfl, rfl⟩ := hx
  exact hf h

/-- What is found is found with more room. -/
theorem Finds.weaken {x : Option (Read α m)} (hx : Finds x a rest) (h : m ≤ n) :
    Finds (x >>= fun r => some (r.weaken h)) a rest :=
  hx.bind fun h' => finds_some (Nat.lt_of_lt_of_le h' h)

end Finds

variable {c : Char} {s rest : List Char}

/-! ## Texts -/

/-- The two digits of a control character are read as its number. -/
theorem hexQuad?_hexPair : ∀ n < 32,
    hexQuad? '0' '0' (Nat.digitChar (n / 16)) (Nat.digitChar (n % 16)) = some n := by
  decide

/-- A number below the surrogates stands for a character. -/
theorem Unit16.ofNat_of_lt {n : Nat} (hn : n < 32) : Unit16.ofNat n = .char (Char.ofNat n) := by
  unfold Unit16.ofNat
  rw [if_neg (by omega), if_neg (by omega)]

/-- An escape of one letter stands for its character. -/
theorem finds_textBody_letter {e : Char} {pieces : List Unit16} (hu : e ≠ 'u')
    (he : escapedChar? e = some c) (hs : Finds (textBody s) pieces rest) :
    Finds (textBody ('\\' :: e :: s)) (.char c :: pieces) rest := by
  rw [textBody]
  · rw [he]
    exact hs.bind fun _ => finds_some _
  · intro _ _ _ _ _ h
    exact absurd h hu

/-- An escape of a number stands for its control character. -/
theorem finds_textBody_number {pieces : List Unit16} (hc : c.toNat < 0x20)
    (hs : Finds (textBody s) pieces rest) :
    Finds (textBody ('\\' :: 'u' :: '0' :: '0' :: (hexPair c.toNat ++ s))) (.char c :: pieces)
      rest := by
  simp only [hexPair, List.cons_append, List.nil_append]
  rw [textBody, hexQuad?_hexPair c.toNat hc]
  refine hs.bind fun _ => ?_
  rw [Unit16.ofNat_of_lt hc, Char.ofNat_toNat]
  exact finds_some _

/-- A character that needs no escape stands for itself. -/
theorem finds_textBody_plain {pieces : List Unit16} (hquote : c ≠ '"') (hslash : c ≠ '\\')
    (hc : ¬c.toNat < 0x20) (hs : Finds (textBody s) pieces rest) :
    Finds (textBody (c :: s)) (.char c :: pieces) rest := by
  rw [textBody]
  · rw [if_neg (not_or.mpr ⟨hslash, hc⟩)]
    exact hs.bind fun _ => finds_some _
  · exact hquote
  · intro _ _ _ _ _ h
    exact absurd h hslash
  · intro _ _ h
    exact absurd h hslash

/-- A character is written as a letter behind a backslash, as its number, or as itself. -/
theorem escaped_cases (c : Char) :
    (∃ e, e ≠ 'u' ∧ escapedChar? e = some c ∧ escaped c = ['\\', e]) ∨
      (c.toNat < 0x20 ∧ escaped c = '\\' :: 'u' :: '0' :: '0' :: hexPair c.toNat) ∨
        (c ≠ '"' ∧ c ≠ '\\' ∧ ¬c.toNat < 0x20 ∧ escaped c = [c]) := by
  unfold escaped
  split_ifs with hquote hslash hn hr ht hb hf hcontrol
  · exact Or.inl ⟨'"', by decide, by rw [hquote]; rfl, rfl⟩
  · exact Or.inl ⟨'\\', by decide, by rw [hslash]; rfl, rfl⟩
  · exact Or.inl ⟨'n', by decide, by rw [hn]; rfl, rfl⟩
  · exact Or.inl ⟨'r', by decide, by rw [hr]; rfl, rfl⟩
  · exact Or.inl ⟨'t', by decide, by rw [ht]; rfl, rfl⟩
  · exact Or.inl ⟨'b', by decide, by rw [hb]; rfl, rfl⟩
  · exact Or.inl ⟨'f', by decide, by rw [hf]; rfl, rfl⟩
  · exact Or.inr (Or.inl ⟨hcontrol, rfl⟩)
  · exact Or.inr (Or.inr ⟨hquote, hslash, hcontrol, rfl⟩)

/-- Each character is read as it is written. -/
theorem finds_textBody_escaped (c : Char) {pieces : List Unit16}
    (hs : Finds (textBody s) pieces rest) :
    Finds (textBody (escaped c ++ s)) (.char c :: pieces) rest := by
  rcases escaped_cases c with
    ⟨e, hu, he, hescaped⟩ | ⟨hcontrol, hescaped⟩ | ⟨hquote, hslash, hcontrol, hescaped⟩
  · rw [hescaped]
    exact finds_textBody_letter hu he hs
  · rw [hescaped]
    exact finds_textBody_number hcontrol hs
  · rw [hescaped]
    exact finds_textBody_plain hquote hslash hcontrol hs

/-- The escaped characters of a text are found up to the closing quote. -/
theorem finds_textBody (cs rest : List Char) :
    Finds (textBody (cs.flatMap escaped ++ '"' :: rest)) (cs.map Unit16.char) rest := by
  induction cs with
  | nil =>
    rw [List.flatMap_nil, List.nil_append, textBody]
    exact finds_some _
  | cons c cs ih =>
    rw [List.flatMap_cons, List.append_assoc]
    exact finds_textBody_escaped c ih

/-- Characters alone are a text. -/
theorem joinPairs_map_char (cs : List Char) : joinPairs (cs.map Unit16.char) = some cs := by
  induction cs with
  | nil => rfl
  | cons c cs ih =>
    rw [List.map_cons, joinPairs, ih]
    rfl

/-- A text is read as it is written. -/
theorem finds_textAfterQuote (t : String) (rest : List Char) :
    Finds (textAfterQuote (t.toList.flatMap escaped ++ '"' :: rest)) (some t) rest := by
  unfold textAfterQuote
  refine (finds_textBody t.toList rest).bind fun _ => ?_
  rw [joinPairs_map_char, Option.map_some, String.ofList_toList]
  exact finds_some _

/-! ## Numbers -/

/-- The text starts with something that goes on with no number. -/
def EndsNumber (s : List Char) : Prop :=
  ∀ c ∈ s.head?, c.isDigit = false ∧ c ≠ '.' ∧ c ≠ 'e' ∧ c ≠ 'E'

/-- The text does not start with a digit. -/
def EndsDigits (s : List Char) : Prop := ∀ c ∈ s.head?, c.isDigit = false

theorem EndsNumber.endsDigits (hs : EndsNumber s) : EndsDigits s :=
  fun c hc => (hs c hc).1

/-- Digits in front of something else are taken as a whole. -/
theorem takeWhile_digits {ds : List Char} (hds : ∀ c ∈ ds, c.isDigit = true)
    (hrest : EndsDigits rest) : (ds ++ rest).takeWhile Char.isDigit = ds := by
  rw [List.takeWhile_append_of_pos hds]
  cases rest with
  | nil => simp
  | cons c rest =>
    have hc := hrest c rfl
    simp [hc]

/-- What comes behind the digits is left. -/
theorem dropWhile_digits {ds : List Char} (hds : ∀ c ∈ ds, c.isDigit = true)
    (hrest : EndsDigits rest) : (ds ++ rest).dropWhile Char.isDigit = rest := by
  rw [List.dropWhile_append_of_pos hds]
  cases rest with
  | nil => rfl
  | cons c rest =>
    have hc := hrest c rfl
    simp [hc]

theorem isDigit_of_mem_toDigits {n : Nat} (hc : c ∈ Nat.toDigits 10 n) : c.isDigit = true :=
  Nat.isDigit_of_mem_toDigits (by decide) (by decide) hc

/-- The digits of a number have its value. -/
theorem digitsValue_toDigits (n : Nat) : digitsValue (Nat.toDigits 10 n) = n :=
  Nat.ofDigitChars_ten_toDigits

/-- Only zero is written with a zero in front. -/
theorem head?_toDigits_ne_zero {n : Nat} (hn : 0 < n) : (Nat.toDigits 10 n).head? ≠ some '0' := by
  induction n using Nat.strongRecOn with
  | _ n ih =>
    rw [Nat.toDigits_eq_if (by decide)]
    split
    · rw [List.head?_cons, Ne, Option.some.injEq, Nat.digitChar_eq_zero]
      omega
    · rw [List.head?_append_of_ne_nil _ Nat.toDigits_ne_nil]
      exact ih (n / 10) (by omega) (by omega)

/-- A number is written with some digit in front. -/
theorem exists_toDigits_eq_cons (n : Nat) :
    ∃ c ds, Nat.toDigits 10 n = c :: ds ∧ c.isDigit = true := by
  obtain ⟨c, ds, hdigits⟩ := List.exists_cons_of_ne_nil (Nat.toDigits_ne_nil (n := n) (b := 10))
  exact ⟨c, ds, hdigits, isDigit_of_mem_toDigits (hdigits ▸ List.mem_cons_self)⟩

/-- The digits of a whole number are found. -/
theorem finds_wholePart (n : Nat) (hrest : EndsDigits rest) :
    Finds (wholePart (Nat.toDigits 10 n ++ rest)) n rest := by
  by_cases hn : n = 0
  · subst hn
    exact finds_some _
  · obtain ⟨c, ds, hdigits, hc⟩ := exists_toDigits_eq_cons n
    have hds : ∀ d ∈ ds, d.isDigit = true := fun d hd =>
      isDigit_of_mem_toDigits (hdigits ▸ List.mem_cons_of_mem c hd)
    have hzero : c ≠ '0' := by
      rintro rfl
      exact head?_toDigits_ne_zero (Nat.pos_of_ne_zero hn) (by rw [hdigits]; rfl)
    have hvalue : digitsValue (c :: ds) = n := by
      rw [← hdigits, digitsValue_toDigits]
    rw [hdigits, List.cons_append, wholePart, if_neg hzero, if_pos hc]
    refine ⟨_, rfl, ?_, ?_⟩
    · rw [takeWhile_digits hds hrest, hvalue]
    · exact dropWhile_digits hds hrest

/-- The point and the digits behind it. -/
def point (ds : List Nat) : List Char := if ds.isEmpty then [] else '.' :: ds.map Nat.digitChar

/-- The letter of an exponent and the exponent. -/
def power : Option Int → List Char
  | none => []
  | some e => 'e' :: (toString e).toList

/-- A fraction is found, or none if there is no point. -/
theorem finds_fractionPart {ds : List Nat} (hds : ∀ d ∈ ds, d < 10)
    (hrest : EndsDigits rest) (hpoint : rest.head? ≠ some '.') :
    Finds (fractionPart (point ds ++ rest)) ds rest := by
  cases ds with
  | nil =>
    change Finds (fractionPart rest) [] rest
    cases rest with
    | nil => exact finds_some _
    | cons c rest =>
      rw [fractionPart]
      · exact finds_some _
      · intro t h
        rw [h] at hpoint
        exact absurd rfl hpoint
  | cons d ds =>
    have hdigits : ∀ c ∈ (d :: ds).map Nat.digitChar, c.isDigit = true := by
      intro c hc
      obtain ⟨n, hn, rfl⟩ := List.mem_map.mp hc
      rw [Nat.isDigit_digitChar]
      exact decide_eq_true (hds n hn)
    have hvalues : ((d :: ds).map Nat.digitChar).map (fun c => c.toNat - 48) = d :: ds := by
      rw [List.map_map]
      have hcongr := List.map_congr_left fun n hn => Nat.toNat_digitChar_sub_48_of_lt_ten (hds n hn)
      exact hcongr.trans (List.map_id' _)
    have htake := takeWhile_digits hdigits hrest
    change Finds (fractionPart ('.' :: ((d :: ds).map Nat.digitChar ++ rest))) (d :: ds) rest
    rw [fractionPart]
    refine ⟨_, if_neg ?_, ?_, ?_⟩
    · rw [htake]
      exact Bool.false_ne_true
    · simp only [htake, hvalues]
    · exact dropWhile_digits hdigits hrest

/-- The digits of an exponent are found with its sign. -/
theorem finds_exponentDigits (negative : Bool) (n : Nat) (hrest : EndsDigits rest) :
    Finds (exponentDigits negative (Nat.toDigits 10 n ++ rest))
      (if negative then -(n : Int) else n) rest := by
  have htake := takeWhile_digits (fun c => isDigit_of_mem_toDigits (n := n)) hrest
  unfold exponentDigits
  refine ⟨_, if_neg ?_, ?_, ?_⟩
  · rw [htake, List.isEmpty_iff]
    exact Nat.toDigits_ne_nil
  · simp only [htake, digitsValue_toDigits]
  · exact dropWhile_digits (fun c => isDigit_of_mem_toDigits) hrest

theorem finds_exponentPart_negative (n : Nat) (hrest : EndsDigits rest) :
    Finds (exponentPart ('e' :: '-' :: (Nat.toDigits 10 n ++ rest))) (some (-(n : Int))) rest := by
  rw [exponentPart, if_pos (Or.inl rfl)]
  · exact (finds_exponentDigits true n hrest).bind fun _ => finds_some _

theorem finds_exponentPart_digits (n : Nat) (hrest : EndsDigits rest) :
    Finds (exponentPart ('e' :: (Nat.toDigits 10 n ++ rest))) (some (n : Int)) rest := by
  obtain ⟨c, ds, hdigits, hc⟩ := exists_toDigits_eq_cons n
  have hfinds := finds_exponentDigits false n hrest
  rw [hdigits, List.cons_append] at hfinds ⊢
  rw [exponentPart, if_pos (Or.inl rfl)]
  · exact hfinds.bind fun _ => finds_some _
  · rintro u heq
    obtain rfl := (List.cons.inj heq).1
    cases hc
  · rintro u heq
    obtain rfl := (List.cons.inj heq).1
    cases hc

/-- An exponent is found, or none if there is none. -/
theorem finds_exponentPart (e : Option Int) (hrest : EndsNumber rest) :
    Finds (exponentPart (power e ++ rest)) e rest := by
  cases e with
  | none =>
    change Finds (exponentPart rest) none rest
    cases rest with
    | nil => exact finds_some _
    | cons c rest =>
      obtain ⟨-, -, he, hE⟩ := hrest c rfl
      exact ⟨_, if_neg (not_or.mpr ⟨he, hE⟩), rfl, rfl⟩
  | some e =>
    cases e with
    | ofNat n =>
      have hwritten : power (some (Int.ofNat n)) = 'e' :: Nat.toDigits 10 n :=
        congrArg (List.cons 'e') Nat.toList_repr
      rw [hwritten]
      exact finds_exponentPart_digits n hrest.endsDigits
    | negSucc n =>
      have hwritten : power (some (Int.negSucc n)) = 'e' :: '-' :: Nat.toDigits 10 (n + 1) := by
        change 'e' :: ("-" ++ (n + 1).repr).toList = _
        rw [String.toList_append, Nat.toList_repr]
        rfl
      rw [hwritten]
      exact finds_exponentPart_negative (n + 1) hrest.endsDigits

/-- No digit follows the digits in front of an exponent. -/
theorem endsDigits_power (e : Option Int) (hrest : EndsNumber rest) :
    EndsDigits (power e ++ rest) := by
  cases e with
  | none => exact hrest.endsDigits
  | some e =>
    intro c hc
    obtain rfl : 'e' = c := Option.some.inj hc
    rfl

theorem head?_power_ne_point (e : Option Int) (hrest : EndsNumber rest) :
    (power e ++ rest).head? ≠ some '.' := by
  cases e with
  | none =>
    intro hhead
    exact (hrest '.' hhead).2.1 rfl
  | some e =>
    intro hhead
    cases hhead

/-- No digit follows the digits in front of a fraction. -/
theorem endsDigits_point (ds : List Nat) (hs : EndsDigits s) : EndsDigits (point ds ++ s) := by
  cases ds with
  | nil => exact hs
  | cons d ds =>
    intro c hc
    obtain rfl : '.' = c := Option.some.inj hc
    rfl

/-- A number without its sign is found. -/
theorem finds_unsigned (negative : Bool) {d : Decimal} (hd : ∀ n ∈ d.fraction, n < 10)
    (hrest : EndsNumber rest) :
    Finds (unsigned negative
        (Nat.toDigits 10 d.whole ++ (point d.fraction ++ (power d.exponent ++ rest))))
      { d with negative := negative } rest := by
  have hpower := endsDigits_power d.exponent hrest
  have hpoint := head?_power_ne_point d.exponent hrest
  unfold unsigned
  refine (finds_wholePart d.whole (endsDigits_point d.fraction hpower)).bind fun _ => ?_
  refine (finds_fractionPart hd hpower hpoint).bind fun _ => ?_
  exact (finds_exponentPart d.exponent hrest).bind fun _ => finds_some _

/-- A number is its sign, the digits before the point, those behind it, and the exponent. -/
theorem written_append (d : Decimal) (rest : List Char) :
    d.written ++ rest = (if d.negative then ['-'] else []) ++
      (Nat.toDigits 10 d.whole ++ (point d.fraction ++ (power d.exponent ++ rest))) := by
  have hparts : d.written = (if d.negative then ['-'] else []) ++ Nat.toDigits 10 d.whole ++
      point d.fraction ++ power d.exponent := by
    unfold Decimal.written power
    rfl
  rw [hparts, List.append_assoc, List.append_assoc, List.append_assoc]

/-- A number starts with a digit or a sign. -/
theorem exists_written_eq_cons (d : Decimal) :
    ∃ c s, d.written = c :: s ∧ (c = '-' ∨ c.isDigit = true) := by
  have hwritten := written_append d []
  rw [List.append_nil] at hwritten
  obtain ⟨c, ds, hdigits, hc⟩ := exists_toDigits_eq_cons d.whole
  rw [hwritten, hdigits]
  cases d.negative with
  | true => exact ⟨'-', _, rfl, Or.inl rfl⟩
  | false => exact ⟨c, _, rfl, Or.inr hc⟩

/-- A number is read as it is written. -/
theorem finds_decimal {d : Decimal} (hd : ∀ n ∈ d.fraction, n < 10) (hrest : EndsNumber rest) :
    Finds (decimal (d.written ++ rest)) d rest := by
  rw [written_append]
  obtain ⟨negative, whole, fraction, exponent⟩ := d
  have hfinds := finds_unsigned negative hd hrest
  cases negative with
  | true => exact hfinds.weaken _
  | false =>
    obtain ⟨c, ds, hdigits, hc⟩ := exists_toDigits_eq_cons whole
    change Finds (decimal (Nat.toDigits 10 whole ++ _)) _ _
    rw [hdigits, List.cons_append] at hfinds ⊢
    rw [decimal]
    · exact hfinds
    · intro s h
      obtain rfl := (List.cons.inj h).1
      cases hc

/-! ## Values -/

/-- A character that is no blank is not skipped. -/
theorem skipSpace_cons (hc : isSpace c = false) (s : List Char) : skipSpace (c :: s) = c :: s := by
  rw [skipSpace, List.dropWhile_cons_of_neg (by simp [hc])]

/-- What begins without a space is what it begins with behind spaces. -/
theorem cons_inj_of_skipSpace {d : Char} {t : List Char} (hc : isSpace c = false)
    (h : skipSpace (c :: s) = d :: t) : c = d ∧ s = t :=
  List.cons.inj ((skipSpace_cons hc s).symm.trans h)

/-- A number starts with a digit or a sign, and with nothing else. -/
theorem ne_of_startsNumber {e : Char} (hc : c = '-' ∨ c.isDigit = true) (hsign : e ≠ '-')
    (hdigit : e.isDigit = false) : c ≠ e := by
  rintro rfl
  rcases hc with hc | hc
  · exact hsign hc
  · rw [hdigit] at hc
    cases hc

theorem isSpace_eq_false_of_startsNumber (hc : c = '-' ∨ c.isDigit = true) :
    isSpace c = false := by
  have hspace : c ≠ ' ' := ne_of_startsNumber hc (by decide) rfl
  have hline : c ≠ '\n' := ne_of_startsNumber hc (by decide) rfl
  have hreturn : c ≠ '\r' := ne_of_startsNumber hc (by decide) rfl
  have htab : c ≠ '\t' := ne_of_startsNumber hc (by decide) rfl
  simp [isSpace, hspace, hline, hreturn, htab]

/-- A number is found where a scalar is expected. -/
theorem finds_scalar_number {d : Decimal} (hc : c = '-' ∨ c.isDigit = true)
    (hs : Finds (decimal (c :: s)) d rest) : Finds (scalar (c :: s)) (number d) rest := by
  rw [scalar]
  · exact hs.bind fun _ => finds_some _
  · intro _ h
    exact absurd (List.cons.inj h).1 (ne_of_startsNumber hc (by decide) rfl)
  · intro _ h
    exact absurd (List.cons.inj h).1 (ne_of_startsNumber hc (by decide) rfl)
  · intro _ h
    exact absurd (List.cons.inj h).1 (ne_of_startsNumber hc (by decide) rfl)

/-- A text is found where a value is expected. -/
theorem finds_value_text {t : Option String} (hs : Finds (textAfterQuote s) t rest) :
    Finds (value ('"' :: s)) (text t) rest := by
  rw [value]
  split
  · rename_i heq
    obtain rfl := (cons_inj_of_skipSpace rfl heq).2
    exact hs.bind fun _ => finds_some _
  · rename_i heq
    cases (cons_inj_of_skipSpace rfl heq).1
  · rename_i heq
    cases (cons_inj_of_skipSpace rfl heq).1
  · rename_i hquote _ _
    exact absurd (skipSpace_cons rfl s) (hquote s)

/-- An array is found where a value is expected. -/
theorem finds_value_array {vs : List Json} (hs : Finds (items s) vs rest) :
    Finds (value ('[' :: s)) (array vs) rest := by
  rw [value]
  split
  · rename_i heq
    cases (cons_inj_of_skipSpace rfl heq).1
  · rename_i heq
    obtain rfl := (cons_inj_of_skipSpace rfl heq).2
    exact hs.bind fun _ => finds_some _
  · rename_i heq
    cases (cons_inj_of_skipSpace rfl heq).1
  · rename_i hbracket _
    exact absurd (skipSpace_cons rfl s) (hbracket s)

/-- An object is found where a value is expected. -/
theorem finds_value_object {ms : List (Option String × Json)} (hs : Finds (members s) ms rest) :
    Finds (value ('\x7b' :: s)) (object ms) rest := by
  rw [value]
  split
  · rename_i heq
    cases (cons_inj_of_skipSpace rfl heq).1
  · rename_i heq
    cases (cons_inj_of_skipSpace rfl heq).1
  · rename_i heq
    obtain rfl := (cons_inj_of_skipSpace rfl heq).2
    exact hs.bind fun _ => finds_some _
  · rename_i hbrace
    exact absurd (skipSpace_cons rfl s) (hbrace s)

/-- A scalar is found where a value is expected. -/
theorem finds_value_scalar {v : Json} (hc : isSpace c = false)
    (hopening : c ≠ '"' ∧ c ≠ '[' ∧ c ≠ '\x7b') (hs : Finds (scalar (c :: s)) v rest) :
    Finds (value (c :: s)) v rest := by
  obtain ⟨hquote, hbracket, hbrace⟩ := hopening
  rw [value]
  split
  · rename_i heq
    exact absurd (cons_inj_of_skipSpace hc heq).1 hquote
  · rename_i heq
    exact absurd (cons_inj_of_skipSpace hc heq).1 hbracket
  · rename_i heq
    exact absurd (cons_inj_of_skipSpace hc heq).1 hbrace
  · have hscalar : Finds (scalar (skipSpace (c :: s))) v rest := by
      rw [skipSpace_cons hc]
      exact hs
    exact hscalar.weaken _

/-! ## Items and members -/

theorem finds_items_nil (rest : List Char) : Finds (items (']' :: rest)) [] rest := by
  rw [items]
  split
  · rename_i heq
    obtain rfl := (cons_inj_of_skipSpace rfl heq).2
    exact finds_some _
  · rename_i hbracket
    exact absurd (skipSpace_cons rfl rest) (hbracket rest)

/-- Items are found if there is one before the closing bracket. -/
theorem finds_items_some {vs : List Json} (hc : isSpace c = false) (hbracket : c ≠ ']')
    (hs : Finds (someItems (c :: s)) vs rest) : Finds (items (c :: s)) vs rest := by
  rw [items]
  split
  · rename_i heq
    exact absurd (cons_inj_of_skipSpace hc heq).1 hbracket
  · exact hs

/-- The last item is found in front of the closing bracket. -/
theorem finds_someItems_last {v : Json} (hv : Finds (value s) v (']' :: rest)) :
    Finds (someItems s) [v] rest := by
  rw [someItems]
  refine hv.bind fun _ => ?_
  split
  · rename_i heq
    cases (cons_inj_of_skipSpace rfl heq).1
  · rename_i heq
    obtain rfl := (cons_inj_of_skipSpace rfl heq).2
    exact finds_some _
  · rename_i hbracket
    exact absurd (skipSpace_cons rfl rest) (hbracket rest)

/-- An item is found in front of a comma and others. -/
theorem finds_someItems_cons {v : Json} {vs : List Json} {t : List Char}
    (hv : Finds (value s) v (',' :: t)) (hvs : Finds (someItems t) vs rest) :
    Finds (someItems s) (v :: vs) rest := by
  rw [someItems]
  refine hv.bind fun _ => ?_
  split
  · rename_i heq
    obtain rfl := (cons_inj_of_skipSpace rfl heq).2
    exact hvs.bind fun _ => finds_some _
  · rename_i heq
    cases (cons_inj_of_skipSpace rfl heq).1
  · rename_i hcomma _
    exact absurd (skipSpace_cons rfl t) (hcomma t)

theorem finds_members_nil (rest : List Char) : Finds (members ('\x7d' :: rest)) [] rest := by
  rw [members]
  split
  · rename_i heq
    obtain rfl := (cons_inj_of_skipSpace rfl heq).2
    exact finds_some _
  · rename_i hbrace
    exact absurd (skipSpace_cons rfl rest) (hbrace rest)

/-- Members are found if there is one before the closing brace. -/
theorem finds_members_some {ms : List (Option String × Json)}
    (hs : Finds (someMembers ('"' :: s)) ms rest) : Finds (members ('"' :: s)) ms rest := by
  rw [members]
  split
  · rename_i heq
    cases (cons_inj_of_skipSpace rfl heq).1
  · exact hs

/-- The last member is found in front of the closing brace. -/
theorem finds_someMembers_last {name : Option String} {v : Json} {t : List Char}
    (hname : Finds (textAfterQuote s) name (':' :: t)) (hv : Finds (value t) v ('\x7d' :: rest)) :
    Finds (someMembers ('"' :: s)) [(name, v)] rest := by
  rw [someMembers]
  split
  · rename_i heq
    obtain rfl := (cons_inj_of_skipSpace rfl heq).2
    refine hname.bind fun _ => ?_
    split
    · rename_i hcolon
      obtain rfl := (cons_inj_of_skipSpace rfl hcolon).2
      refine hv.bind fun _ => ?_
      split
      · rename_i hnext
        cases (cons_inj_of_skipSpace rfl hnext).1
      · rename_i hnext
        obtain rfl := (cons_inj_of_skipSpace rfl hnext).2
        exact finds_some _
      · rename_i hbrace
        exact absurd (skipSpace_cons rfl rest) (hbrace rest)
    · rename_i hcolon
      exact absurd (skipSpace_cons rfl t) (hcolon t)
  · rename_i hquote
    exact absurd (skipSpace_cons rfl s) (hquote s)

/-- A member is found in front of a comma and others. -/
theorem finds_someMembers_cons {name : Option String} {v : Json}
    {ms : List (Option String × Json)} {t u : List Char}
    (hname : Finds (textAfterQuote s) name (':' :: t)) (hv : Finds (value t) v (',' :: u))
    (hms : Finds (someMembers u) ms rest) :
    Finds (someMembers ('"' :: s)) ((name, v) :: ms) rest := by
  rw [someMembers]
  split
  · rename_i heq
    obtain rfl := (cons_inj_of_skipSpace rfl heq).2
    refine hname.bind fun _ => ?_
    split
    · rename_i hcolon
      obtain rfl := (cons_inj_of_skipSpace rfl hcolon).2
      refine hv.bind fun _ => ?_
      split
      · rename_i hnext
        obtain rfl := (cons_inj_of_skipSpace rfl hnext).2
        exact hms.bind fun _ => finds_some _
      · rename_i hnext
        cases (cons_inj_of_skipSpace rfl hnext).1
      · rename_i hcomma _
        exact absurd (skipSpace_cons rfl u) (hcomma u)
    · rename_i hcolon
      exact absurd (skipSpace_cons rfl t) (hcolon t)
  · rename_i hquote
    exact absurd (skipSpace_cons rfl s) (hquote s)

/-! ## Whole values -/

mutual

/-- Everything in a value can be written: texts are texts, and digits are digits. -/
def IsWritable : Json → Prop
  | null => True
  | bool _ => True
  | number d => ∀ n ∈ d.fraction, n < 10
  | text t => t.isSome = true
  | array items => AreWritable items
  | object members => AreWritableMembers members

/-- Everything in some items can be written. -/
def AreWritable : List Json → Prop
  | [] => True
  | v :: rest => IsWritable v ∧ AreWritable rest

/-- Everything in some members can be written. -/
def AreWritableMembers : List (Option String × Json) → Prop
  | [] => True
  | (name, v) :: rest => name.isSome = true ∧ IsWritable v ∧ AreWritableMembers rest

end

/-- Values are writable when each of them is. -/
theorem areWritable_iff {vs : List Json} : AreWritable vs ↔ ∀ v ∈ vs, v.IsWritable := by
  induction vs with
  | nil => exact iff_of_true trivial fun v hv => by cases hv
  | cons v vs ih => rw [AreWritable, ih, List.forall_mem_cons]

/-- What may follow a value: a comma or a closing bracket, or nothing. -/
def Follows (s : List Char) : Prop := ∀ c ∈ s.head?, c = ',' ∨ c = ']' ∨ c = '\x7d'

theorem Follows.endsNumber (hs : Follows s) : EndsNumber s := by
  intro c hc
  rcases hs c hc with rfl | rfl | rfl
  · decide
  · decide
  · decide

theorem follows_comma (s : List Char) : Follows (',' :: s) :=
  fun _ hc => Or.inl (Option.some.inj hc).symm

theorem follows_bracket (s : List Char) : Follows (']' :: s) :=
  fun _ hc => Or.inr (Or.inl (Option.some.inj hc).symm)

theorem follows_brace (s : List Char) : Follows ('\x7d' :: s) :=
  fun _ hc => Or.inr (Or.inr (Option.some.inj hc).symm)

/-- A value starts with a character that is no blank and closes nothing. -/
theorem exists_compact_eq_cons (v : Json) :
    ∃ c s, v.compact = c :: s ∧ isSpace c = false ∧ c ≠ ']' := by
  cases v with
  | null => exact ⟨'n', _, rfl, rfl, by decide⟩
  | bool b =>
    cases b with
    | true => exact ⟨'t', _, rfl, rfl, by decide⟩
    | false => exact ⟨'f', _, rfl, rfl, by decide⟩
  | number d =>
    obtain ⟨c, s, hwritten, hc⟩ := exists_written_eq_cons d
    exact ⟨c, s, hwritten, isSpace_eq_false_of_startsNumber hc,
      ne_of_startsNumber hc (by decide) rfl⟩
  | text t => exact ⟨'"', _, rfl, rfl, by decide⟩
  | array vs => exact ⟨'[', _, rfl, rfl, by decide⟩
  | object ms => exact ⟨'\x7b', _, rfl, rfl, by decide⟩

/-- A number is found where a value is expected. -/
theorem finds_value_number {d : Decimal} (hd : ∀ n ∈ d.fraction, n < 10)
    (hrest : EndsNumber rest) : Finds (value (d.written ++ rest)) (number d) rest := by
  have hdecimal := finds_decimal hd hrest
  obtain ⟨c, s, hwritten, hc⟩ := exists_written_eq_cons d
  rw [hwritten, List.cons_append] at hdecimal ⊢
  have hquote : c ≠ '"' := ne_of_startsNumber hc (by decide) rfl
  have hbracket : c ≠ '[' := ne_of_startsNumber hc (by decide) rfl
  have hbrace : c ≠ '\x7b' := ne_of_startsNumber hc (by decide) rfl
  exact finds_value_scalar (isSpace_eq_false_of_startsNumber hc) ⟨hquote, hbracket, hbrace⟩
    (finds_scalar_number hc hdecimal)

/-- Parts that are joined start with the first one. -/
theorem exists_joined_cons (separator part : List Char) (parts : List (List Char)) :
    ∃ tail, joined separator (part :: parts) = part ++ tail := by
  cases parts with
  | nil => exact ⟨[], (List.append_nil part).symm⟩
  | cons next parts => exact ⟨_, List.append_assoc part separator _⟩

mutual

/-- Every value is read as it is written. -/
theorem finds_value (v : Json) (rest : List Char) (hv : v.IsWritable) (hrest : Follows rest) :
    Finds (value (v.compact ++ rest)) v rest := by
  match v, hv with
  | null, _ => exact finds_value_scalar rfl (by decide) (finds_some _)
  | bool true, _ => exact finds_value_scalar rfl (by decide) (finds_some _)
  | bool false, _ => exact finds_value_scalar rfl (by decide) (finds_some _)
  | number d, hv => exact finds_value_number hv hrest.endsNumber
  | text none, hv => cases hv
  | text (some t), _ =>
    rw [compact, Option.getD_some, quoted, List.cons_append, List.append_assoc]
    exact finds_value_text (finds_textAfterQuote t rest)
  | array [], _ => exact finds_value_array (finds_items_nil rest)
  | array (v :: vs), hv =>
    have hsome := finds_someItems (v :: vs) rest (List.cons_ne_nil v vs) hv
    -- The first item starts with no closing bracket.
    obtain ⟨c, s, hcompact, hc, hbracket⟩ := exists_compact_eq_cons v
    obtain ⟨tail, htail⟩ := exists_joined_cons [','] v.compact (compactItems vs)
    rw [compact, List.cons_append, List.append_assoc]
    rw [compactItems, htail, hcompact] at hsome ⊢
    exact finds_value_array (finds_items_some hc hbracket hsome)
  | object [], _ => exact finds_value_object (finds_members_nil rest)
  | object ((name, v) :: ms), hv =>
    have hsome := finds_someMembers ((name, v) :: ms) rest (List.cons_ne_nil _ ms) hv
    obtain ⟨tail, htail⟩ := exists_joined_cons [',']
      (quoted (name.getD "") ++ ':' :: v.compact) (compactMembers ms)
    rw [compact, List.cons_append, List.append_assoc]
    rw [compactMembers, htail, quoted] at hsome ⊢
    exact finds_value_object (finds_members_some hsome)

/-- So are the items of an array. -/
theorem finds_someItems (vs : List Json) (rest : List Char) (hne : vs ≠ [])
    (hvs : AreWritable vs) :
    Finds (someItems (joined [','] (compactItems vs) ++ ']' :: rest)) vs rest := by
  match vs, hvs with
  | [], _ => exact absurd rfl hne
  | [v], hv =>
    exact finds_someItems_last (finds_value v _ hv.1 (follows_bracket rest))
  | v :: w :: ws, hv =>
    have hws := finds_someItems (w :: ws) rest (List.cons_ne_nil w ws) hv.2
    have hfirst := finds_value v _ hv.1
      (follows_comma (joined [','] (compactItems (w :: ws)) ++ ']' :: rest))
    have hjoined : joined [','] (compactItems (v :: w :: ws)) ++ ']' :: rest =
        v.compact ++ ',' :: (joined [','] (compactItems (w :: ws)) ++ ']' :: rest) := by
      simp [compactItems, joined]
    rw [hjoined]
    exact finds_someItems_cons hfirst hws

/-- So are the members of an object. -/
theorem finds_someMembers (ms : List (Option String × Json)) (rest : List Char) (hne : ms ≠ [])
    (hms : AreWritableMembers ms) :
    Finds (someMembers (joined [','] (compactMembers ms) ++ '\x7d' :: rest)) ms rest := by
  match ms, hms with
  | [], _ => exact absurd rfl hne
  | [(some name, v)], hv =>
    have hvalue := finds_value v _ hv.2.1 (follows_brace rest)
    have hwritten : joined [','] (compactMembers [(some name, v)]) ++ '\x7d' :: rest =
        '"' :: (name.toList.flatMap escaped ++ '"' :: ':' :: (v.compact ++ '\x7d' :: rest)) := by
      simp [compactMembers, joined, quoted]
    rw [hwritten]
    exact finds_someMembers_last (finds_textAfterQuote name _) hvalue
  | (some name, v) :: m :: ms, hv =>
    have hrest := finds_someMembers (m :: ms) rest (List.cons_ne_nil m ms) hv.2.2
    have hvalue := finds_value v _ hv.2.1
      (follows_comma (joined [','] (compactMembers (m :: ms)) ++ '\x7d' :: rest))
    have hwritten : joined [','] (compactMembers ((some name, v) :: m :: ms)) ++ '\x7d' :: rest =
        '"' :: (name.toList.flatMap escaped ++ '"' :: ':' ::
          (v.compact ++ ',' :: (joined [','] (compactMembers (m :: ms)) ++ '\x7d' :: rest))) := by
      simp [compactMembers, joined, quoted]
    rw [hwritten]
    exact finds_someMembers_cons (finds_textAfterQuote name _) hvalue hrest

end

/-- A whole text is read as the value that it writes. -/
theorem parse?_compact {v : Json} (hv : v.IsWritable) : parse? v.compact = some v := by
  have hfinds := finds_value v [] hv fun c hc => by cases hc
  rw [List.append_nil] at hfinds
  obtain ⟨r, hr, hvalue, hrest⟩ := hfinds
  have hend : (skipSpace r.rest).isEmpty = true := by
    rw [hrest]
    rfl
  rw [parse?, hr]
  exact (if_pos hend).trans (congrArg some hvalue)

end Json
end Munch

import Munch.Json.Basic
import Munch.Text.Read

/-!
# Reading JSON

A text is read as one value with blanks around it.  The reader only checks the
form: how large numbers are, and whether surrogates come in pairs, is for those to
decide who use the values.

Main results:

- Theorem {lit}`Json.length_skipSpace_le`: skipping blanks adds nothing.
-/

namespace Munch
namespace Json

/-- The blanks of the format. -/
def isSpace (c : Char) : Bool := c = ' ' || c = '\n' || c = '\r' || c = '\t'

/-- Skips blanks. -/
def skipSpace (s : List Char) : List Char := s.dropWhile isSpace

/-- Skipping blanks adds nothing. -/
theorem length_skipSpace_le (s : List Char) : (skipSpace s).length ≤ s.length :=
  (List.dropWhile_suffix isSpace).length_le

theorem length_lt_of_skipSpace {s rest : List Char} {c : Char} (h : skipSpace s = c :: rest) :
    rest.length < s.length := by
  have := length_skipSpace_le s
  rw [h, List.length_cons] at this
  omega

/-! ## Texts -/

/-- The value of a hexadecimal digit. -/
def hexValue? (c : Char) : Option Nat :=
  if c.isDigit then some (c.toNat - 48)
  else if 'a' ≤ c ∧ c ≤ 'f' then some (c.toNat - 87)
  else if 'A' ≤ c ∧ c ≤ 'F' then some (c.toNat - 55)
  else none

/-- Four hexadecimal digits as a number. -/
def hexQuad? (a b c d : Char) : Option Nat := do
  let a ← hexValue? a
  let b ← hexValue? b
  let c ← hexValue? c
  let d ← hexValue? d
  return ((a * 16 + b) * 16 + c) * 16 + d

/-- The character that a letter after a backslash stands for. -/
def escapedChar? : Char → Option Char
  | '"' => some '"'
  | '\\' => some '\\'
  | '/' => some '/'
  | 'b' => some '\x08'
  | 'f' => some '\x0c'
  | 'n' => some '\n'
  | 'r' => some '\r'
  | 't' => some '\t'
  | _ => none

/-- A piece of a text: a character, or one half of a surrogate pair. -/
inductive Unit16 where
  | char (c : Char)
  | high (n : Nat)
  | low (n : Nat)
deriving DecidableEq, Repr

/-- What a number of 16 bits stands for. -/
def Unit16.ofNat (n : Nat) : Unit16 :=
  if 0xd800 ≤ n ∧ n < 0xdc00 then high (n - 0xd800)
  else if 0xdc00 ≤ n ∧ n < 0xe000 then low (n - 0xdc00)
  else char (Char.ofNat n)

/-- Joins surrogate pairs; there is no text if a half is left over. -/
def joinPairs : List Unit16 → Option (List Char)
  | [] => some []
  | .char c :: rest => (joinPairs rest).map (c :: ·)
  | .high h :: .low l :: rest =>
    (joinPairs rest).map (Char.ofNat (0x10000 + h * 0x400 + l) :: ·)
  | _ => none

/-- Reads the pieces of a text up to the closing quote. -/
def textBody : (s : List Char) → Option (Read (List Unit16) s.length)
  | [] => none
  | '"' :: s => some ⟨[], s, by simp⟩
  | '\\' :: 'u' :: a :: b :: c :: d :: s => do
    let n ← hexQuad? a b c d
    let r ← textBody s
    return ⟨Unit16.ofNat n :: r.value, r.rest, by
      have := r.shorter
      simp only [List.length_cons]
      omega⟩
  | '\\' :: e :: s => do
    let c ← escapedChar? e
    let r ← textBody s
    return ⟨.char c :: r.value, r.rest, by
      have := r.shorter
      simp only [List.length_cons]
      omega⟩
  | c :: s =>
    if c = '\\' ∨ c.toNat < 0x20 then none
    else do
      let r ← textBody s
      return ⟨.char c :: r.value, r.rest, by
        have := r.shorter
        simp only [List.length_cons]
        omega⟩

/-- Reads a text after its opening quote. -/
def textAfterQuote (s : List Char) : Option (Read (Option String) s.length) := do
  let r ← textBody s
  return ⟨(joinPairs r.value).map String.ofList, r.rest, r.shorter⟩

/-! ## Numbers -/

/-- The number that some digits write. -/
def digitsValue (ds : List Char) : Nat := ds.foldl (fun n c => 10 * n + (c.toNat - 48)) 0

/-- Reads a point and digits after it, if there is a point. -/
def fractionPart (s : List Char) : Option (Read (List Nat) (s.length + 1)) :=
  match s with
  | '.' :: t =>
    let ds := t.takeWhile Char.isDigit
    if ds.isEmpty then none
    else some ⟨ds.map fun c => c.toNat - 48, t.dropWhile Char.isDigit, by
      have := (List.dropWhile_suffix (l := t) Char.isDigit).length_le
      simp only [List.length_cons]
      omega⟩
  | s => some ⟨[], s, Nat.lt_succ_self _⟩

/-- Reads the digits of an exponent. -/
def exponentDigits (negative : Bool) (s : List Char) : Option (Read Int (s.length + 1)) :=
  let ds := s.takeWhile Char.isDigit
  if ds.isEmpty then none
  else
    let n : Int := digitsValue ds
    some ⟨if negative then -n else n, s.dropWhile Char.isDigit, by
      have := (List.dropWhile_suffix (l := s) Char.isDigit).length_le
      omega⟩

/-- Reads an exponent, if there is one. -/
def exponentPart (s : List Char) : Option (Read (Option Int) (s.length + 1)) :=
  match s with
  | e :: t =>
    if e = 'e' ∨ e = 'E' then
      match t with
      | '+' :: u => do
        let r ← exponentDigits false u
        return ⟨some r.value, r.rest, by have := r.shorter; simp only [List.length_cons]; omega⟩
      | '-' :: u => do
        let r ← exponentDigits true u
        return ⟨some r.value, r.rest, by have := r.shorter; simp only [List.length_cons]; omega⟩
      | u => do
        let r ← exponentDigits false u
        return ⟨some r.value, r.rest, by have := r.shorter; simp only [List.length_cons]; omega⟩
    else some ⟨none, e :: t, Nat.lt_succ_self _⟩
  | [] => some ⟨none, [], Nat.lt_succ_self _⟩

/-- Reads the digits before the point.  Zero is not followed by more of them. -/
def wholePart : (s : List Char) → Option (Read Nat s.length)
  | [] => none
  | c :: s =>
    if c = '0' then some ⟨0, s, by simp⟩
    else if c.isDigit then
      some ⟨digitsValue (c :: s.takeWhile Char.isDigit), s.dropWhile Char.isDigit, by
        have := (List.dropWhile_suffix (l := s) Char.isDigit).length_le
        simp only [List.length_cons]
        omega⟩
    else none

/-- Reads a number whose sign has been read. -/
def unsigned (negative : Bool) (s : List Char) : Option (Read Decimal s.length) := do
  let w ← wholePart s
  let f ← fractionPart w.rest
  let e ← exponentPart f.rest
  return ⟨⟨negative, w.value, f.value, e.value⟩, e.rest, by
    have hw := w.shorter
    have hf := f.shorter
    have he := e.shorter
    omega⟩

/-- Reads a number. -/
def decimal : (s : List Char) → Option (Read Decimal s.length)
  | '-' :: s => do
    let r ← unsigned true s
    return r.weaken (by simp)
  | s => unsigned false s

/-! ## Values -/

/-- Reads a value that is a word or a number. -/
def scalar : (s : List Char) → Option (Read Json s.length)
  | 'n' :: 'u' :: 'l' :: 'l' :: s => some ⟨null, s, by simp; omega⟩
  | 't' :: 'r' :: 'u' :: 'e' :: s => some ⟨bool true, s, by simp; omega⟩
  | 'f' :: 'a' :: 'l' :: 's' :: 'e' :: s => some ⟨bool false, s, by simp; omega⟩
  | s => do
    let r ← decimal s
    return ⟨number r.value, r.rest, r.shorter⟩

mutual

/-- Reads a value with blanks before it. -/
def value (s : List Char) : Option (Read Json s.length) :=
  match hs : skipSpace s with
  | '"' :: t => do
    have ht := length_lt_of_skipSpace hs
    let r ← textAfterQuote t
    return ⟨text r.value, r.rest, by have := r.shorter; omega⟩
  | '[' :: t => do
    have ht := length_lt_of_skipSpace hs
    let r ← items t
    return ⟨array r.value, r.rest, by have := r.shorter; omega⟩
  | '\x7b' :: t => do
    have ht := length_lt_of_skipSpace hs
    let r ← members t
    return ⟨object r.value, r.rest, by have := r.shorter; omega⟩
  | _ => do
    let r ← scalar (skipSpace s)
    return r.weaken (length_skipSpace_le s)
termination_by 3 * s.length

/-- Reads the items of an array after its opening bracket. -/
def items (s : List Char) : Option (Read (List Json) s.length) :=
  match hs : skipSpace s with
  | ']' :: t => some ⟨[], t, length_lt_of_skipSpace hs⟩
  | _ => someItems s
termination_by 3 * s.length + 2

/-- Reads one or more items of an array. -/
def someItems (s : List Char) : Option (Read (List Json) s.length) := do
  let v ← value s
  have hv := v.shorter
  match hs : skipSpace v.rest with
  | ',' :: t =>
    have ht := length_lt_of_skipSpace hs
    let r ← someItems t
    return ⟨v.value :: r.value, r.rest, by have := r.shorter; omega⟩
  | ']' :: t => return ⟨[v.value], t, by have := length_lt_of_skipSpace hs; omega⟩
  | _ => none
termination_by 3 * s.length + 1

/-- Reads the members of an object after its opening brace. -/
def members (s : List Char) : Option (Read (List (Option String × Json)) s.length) :=
  match hs : skipSpace s with
  | '\x7d' :: t => some ⟨[], t, length_lt_of_skipSpace hs⟩
  | _ => someMembers s
termination_by 3 * s.length + 2

/-- Reads one or more members of an object. -/
def someMembers (s : List Char) : Option (Read (List (Option String × Json)) s.length) :=
  match hs : skipSpace s with
  | '"' :: t => do
    have ht := length_lt_of_skipSpace hs
    let name ← textAfterQuote t
    have hname := name.shorter
    match hn : skipSpace name.rest with
    | ':' :: u =>
      have hu := length_lt_of_skipSpace hn
      let v ← value u
      have hv := v.shorter
      match hv' : skipSpace v.rest with
      | ',' :: w =>
        have hw := length_lt_of_skipSpace hv'
        let r ← someMembers w
        return ⟨(name.value, v.value) :: r.value, r.rest, by have := r.shorter; omega⟩
      | '\x7d' :: w =>
        return ⟨[(name.value, v.value)], w, by have := length_lt_of_skipSpace hv'; omega⟩
      | _ => none
    | _ => none
  | _ => none
termination_by 3 * s.length + 1

end

/-- Reads a whole text as one value. -/
def parse? (s : List Char) : Option Json := do
  let r ← value s
  if (skipSpace r.rest).isEmpty then some r.value else none

end Json
end Munch

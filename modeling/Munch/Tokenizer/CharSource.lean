import Munch.Tokenizer.Basic

/-!
# A window over decoded characters

A reader delivers octets, and a window over the characters that they encode is kept.  One can ask
for a character by its place, which reads as much as is needed, and give up those in front of a
place.

Main results:

- Definitions {lit}`CharSource.get`, {lit}`CharSource.text` and {lit}`CharSource.release`: what
  can be done with a window.
- Theorem {lit}`CharSource.later_get`: asking for a character makes reads or decodes nothing.
-/

namespace Munch

/-- A reader and a window over the characters that were decoded. -/
structure CharSource where
  /-- What the next reads give; none after one that gave nothing. -/
  reader : Option (List Arrival)
  /-- The octets of an unfinished character. -/
  pending : List UInt8
  /-- The characters that are kept. -/
  chars : List Char
  /-- The place of the first of them. -/
  base : Nat
  /-- The place of the first pending octet. -/
  decoded : Nat
  /-- The place of the first wrong octets. -/
  invalidAt : Option Nat

namespace CharSource

/-- A window in front of everything. -/
def create (chunk : Nat) (arrivals : List Arrival) : CharSource where
  reader := some (arrivals.flatMap (Arrival.split (max chunk 4)))
  pending := []
  chars := []
  base := 0
  decoded := 0
  invalidAt := none

/-! ## Reading on -/

/-- Notes that octets are wrong. -/
def refuse (w : CharSource) (offset : Nat) : Except TokenizerError Bool × CharSource :=
  (.error (.invalidUtf8 offset), { w with invalidAt := some offset })

/-- Ends the input, which must not be within a character. -/
def finish (w : CharSource) : Except TokenizerError Bool × CharSource :=
  let w := { w with reader := none }
  if w.pending.isEmpty then (.ok false, w) else w.refuse w.decoded

/-- Decodes so many of the pending octets. -/
def decode (w : CharSource) (valid : Nat) : Except TokenizerError Bool × CharSource :=
  match Utf8.check (w.pending.take valid) with
  | .error refusal => (.error (.invalidUtf8 (w.decoded + refusal.validUpTo)), w)
  | .ok s =>
    (.ok true,
      { w with
        chars := w.chars ++ s
        pending := w.pending.drop valid
        decoded := w.decoded + valid })

/-- Reads until a character can be decoded. -/
def readOn (w : CharSource) : List Arrival → Except TokenizerError Bool × CharSource
  | [] => w.finish
  | .interrupted :: rest => w.readOn rest
  | .failure message :: rest => (.error (.source message), { w with reader := some rest })
  | .bytes octets :: rest =>
    if octets.isEmpty then w.finish
    else
      let w := { w with reader := some rest, pending := w.pending ++ octets }
      match Utf8.decodable w.pending with
      | .error validUpTo => w.refuse (w.decoded + validUpTo)
      | .ok valid => if valid = 0 then w.readOn rest else w.decode valid

/-- Decodes one more character at least, and says whether there was one. -/
def fill (w : CharSource) : Except TokenizerError Bool × CharSource :=
  match w.invalidAt, w.reader with
  | some offset, _ => (.error (.invalidUtf8 offset), w)
  | none, none => (.ok false, w)
  | none, some arrivals => w.readOn arrivals

/-! ## How far a window has come -/

/-- How many reads are left. -/
def left (w : CharSource) : Nat := (w.reader.map List.length).getD 0

/-- The place behind the characters that were decoded. -/
def limit (w : CharSource) : Nat := w.base + w.chars.length

/-- A window after reads, or one for which nothing was decoded. -/
def Later (w after : CharSource) : Prop :=
  after.left < w.left ∨ after.left = w.left ∧ after.limit = w.limit

/-- A source is as late as itself. -/
theorem Later.refl (w : CharSource) : w.Later w := Or.inr ⟨rfl, rfl⟩

/-- Later twice is later. -/
theorem Later.trans {w middle after : CharSource} (hfirst : w.Later middle)
    (hsecond : middle.Later after) : w.Later after := by
  unfold Later at *
  omega

/-- Whether a read was made or a place passed, less is left to be scanned. -/
theorem Later.lex {w middle after : CharSource} {pos pos' : Nat} (hfirst : w.Later middle)
    (hlt : pos < middle.limit) (hsecond : middle.Later after) (hpos : pos < pos') :
    Prod.Lex (· < ·) (· < ·) (after.left, after.limit - pos') (w.left, w.limit - pos) := by
  unfold Later at hfirst hsecond
  rcases Nat.lt_or_eq_of_le (show after.left ≤ w.left by omega) with hleft | hleft
  · exact Prod.Lex.left _ _ hleft
  · rw [hleft]
    exact Prod.Lex.right _ (by omega)

/-- Nothing is left to read once the source is finished. -/
theorem left_finish (w : CharSource) : w.finish.2.left = 0 := by
  simp only [finish, refuse]
  split <;> rfl

/-- Finishing leaves the limit. -/
theorem limit_finish (w : CharSource) : w.finish.2.limit = w.limit := by
  simp only [finish, refuse]
  split <;> rfl

/-- Finishing brings no character. -/
theorem finish_ne (w : CharSource) : w.finish.1 ≠ .ok true := by
  simp only [finish, refuse]
  split <;> simp

/-- Decoding reads nothing more. -/
theorem left_decode (w : CharSource) (valid : Nat) : (w.decode valid).2.left = w.left := by
  rw [decode]
  split <;> rfl

/-- If no read is made, no character is decoded. -/
theorem readOn_cases (w : CharSource) (arrivals : List Arrival) :
    (w.readOn arrivals).2.left < arrivals.length ∨
      (w.readOn arrivals).1 ≠ .ok true ∧ (w.readOn arrivals).2.left = arrivals.length ∧
        (w.readOn arrivals).2.limit = w.limit := by
  fun_induction readOn w arrivals with
  | case1 w => exact Or.inr ⟨w.finish_ne, w.left_finish, w.limit_finish⟩
  | case2 w rest ih =>
    rw [List.length_cons]
    omega
  | case3 w message rest => exact Or.inl (Nat.lt_succ_self _)
  | case4 w octets rest =>
    rw [left_finish]
    exact Or.inl (Nat.zero_lt_succ _)
  | case5 w octets rest => exact Or.inl (Nat.lt_succ_self _)
  | case6 w octets rest hne read hvalid ih =>
    rw [List.length_cons]
    omega
  | case7 w octets rest hne read valid hvalid hpos =>
    rw [left_decode]
    exact Or.inl (Nat.lt_succ_self _)

/-- Filling reads something, or it ends or fails with nothing read. -/
theorem fill_cases (w : CharSource) :
    w.fill.2.left < w.left ∨ w.fill.1 ≠ .ok true ∧ w.fill.2.left = w.left ∧
      w.fill.2.limit = w.limit := by
  unfold fill
  split
  · exact Or.inr ⟨nofun, rfl, rfl⟩
  · exact Or.inr ⟨nofun, rfl, rfl⟩
  · rename_i arrivals _ hreader
    have hleft : w.left = arrivals.length := by rw [left, hreader]; rfl
    rw [hleft]
    exact w.readOn_cases arrivals

/-- To decode a character takes a read. -/
theorem left_fill {w after : CharSource} (hfill : w.fill = (.ok true, after)) :
    after.left < w.left := by
  have hcases := w.fill_cases
  rw [hfill] at hcases
  exact hcases.resolve_right fun h => h.1 rfl

/-! ## Characters by their places -/

/-- The character at a place, if there is one.  It must not have been given up. -/
def get (w : CharSource) (pos : Nat) : Except TokenizerError (Option Char) × CharSource :=
  if pos < w.base + w.chars.length then
    (.ok (if w.base ≤ pos then w.chars[pos - w.base]? else none), w)
  else
    match _hfill : w.fill with
    | (.error e, after) => (.error e, after)
    | (.ok false, after) => (.ok none, after)
    | (.ok true, after) => after.get pos
termination_by w.left
decreasing_by exact left_fill _hfill

/-- The text of so many characters from a place on, which must have been decoded and not given
up. -/
def text (w : CharSource) (pos length : Nat) : String :=
  String.ofList ((w.chars.drop (pos - w.base)).take length)

/-- How many characters must be given up at once. -/
def releaseThreshold : Nat := 4096

/-- Gives up the characters in front of a place, if they are many. -/
def release (w : CharSource) (pos : Nat) : CharSource :=
  let consumed := min (pos - w.base) w.chars.length
  if releaseThreshold ≤ consumed then
    { w with chars := w.chars.drop consumed, base := w.base + consumed }
  else w

/-- Asking for a character makes reads or decodes nothing. -/
theorem later_get (w : CharSource) (pos : Nat) : w.Later (w.get pos).2 := by
  fun_induction get w pos with
  | case1 w => exact Later.refl w
  | case2 w hbeyond e after hfill | case3 w hbeyond after hfill =>
    have hcases := w.fill_cases
    rw [hfill] at hcases
    exact hcases.imp_right And.right
  | case4 w hbeyond after hfill ih => exact Later.trans (Or.inl (left_fill hfill)) ih

/-- A character that can be had was decoded. -/
theorem lt_limit_of_get {w after : CharSource} {pos : Nat} {c : Char}
    (hget : w.get pos = (.ok (some c), after)) : pos < after.limit := by
  fun_induction get w pos with
  | case1 w hkept =>
    rw [Prod.mk.injEq] at hget
    exact hget.2 ▸ hkept
  | case2 => cases hget
  | case3 => cases hget
  | case4 w hbeyond middle hfill ih => exact ih hget

/-- Releasing reads nothing more. -/
theorem left_release (w : CharSource) (pos : Nat) : (w.release pos).left = w.left := by
  rw [release]
  split <;> rfl

/-- Releasing leaves the limit. -/
theorem limit_release (w : CharSource) (pos : Nat) : (w.release pos).limit = w.limit := by
  rw [release]
  split
  · simp only [limit, List.length_drop]
    omega
  · rfl

end CharSource
end Munch

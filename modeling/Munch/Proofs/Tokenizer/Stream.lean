import Munch.Proofs.Text.Arrival
import Munch.Proofs.Tokenizer.Scan
import Munch.Tokenizer.Basic

/-!
# The tokens of a text

An automaton cuts a text into tokens: at each place the longest match comes next, or one
character for which there is no match.  That is defined here for the text as a whole, by
trying beginnings of it, and a scan finds it.

Main results:

- Theorems {lit}`Automaton.longestMatch_eq_some_iff` and
  {lit}`Automaton.longestMatch_eq_none_iff`: what the longest match is.
- Theorem {lit}`Automaton.scan_eq_longestMatch`: a scan of a text finds its longest match.
-/

namespace Munch
namespace Automaton

/-! ## The longest match -/

/-- The longest match among the beginnings of a text of at most `n` characters. -/
def longestUpTo (a : Automaton) (s : List Char) : Nat → Option Match
  | 0 => none
  | n + 1 =>
    match a.recognized? (s.take (n + 1)) with
    | some id => some ⟨id, n + 1⟩
    | none => a.longestUpTo s n

/-- The longest beginning of a text, other than the empty one, for which a token is
recognized, with that token. -/
def longestMatch (a : Automaton) (s : List Char) : Option Match := a.longestUpTo s s.length

variable {a : Automaton} {s : List Char} {m : Match} {n : Nat}

theorem longestUpTo_eq_none_iff :
    a.longestUpTo s n = none ↔ ∀ k, 0 < k → k ≤ n → a.recognized? (s.take k) = none := by
  induction n with
  | zero =>
    refine iff_of_true rfl fun k hpos hle => ?_
    omega
  | succ n ih =>
    rw [longestUpTo]
    cases hlast : a.recognized? (s.take (n + 1)) with
    | some id =>
      refine iff_of_false (by simp) fun hnone => ?_
      rw [hnone (n + 1) (Nat.succ_pos n) (Nat.le_refl _)] at hlast
      cases hlast
    | none =>
      refine ih.trans ⟨fun hnone k hpos hle => ?_, fun hnone k hpos hle => ?_⟩
      · rcases Nat.lt_or_eq_of_le hle with hlt | rfl
        · exact hnone k hpos (Nat.le_of_lt_succ hlt)
        · exact hlast
      · exact hnone k hpos (Nat.le_succ_of_le hle)

theorem longestUpTo_eq_some_iff :
    a.longestUpTo s n = some m ↔
      (0 < m.length ∧ m.length ≤ n ∧ a.recognized? (s.take m.length) = some m.id) ∧
        ∀ k, m.length < k → k ≤ n → a.recognized? (s.take k) = none := by
  induction n with
  | zero =>
    refine iff_of_false (by simp [longestUpTo]) fun hm => ?_
    omega
  | succ n ih =>
    rw [longestUpTo]
    cases hlast : a.recognized? (s.take (n + 1)) with
    | some id =>
      simp only [Option.some.injEq]
      constructor
      · rintro rfl
        exact ⟨⟨Nat.succ_pos n, Nat.le_refl _, hlast⟩,
          fun k hlt hle => absurd hle (Nat.not_le.mpr hlt)⟩
      · rintro ⟨⟨hpos, hle, hm⟩, hlonger⟩
        rcases Nat.lt_or_eq_of_le hle with hlt | heq
        · rw [hlonger (n + 1) hlt (Nat.le_refl _)] at hlast
          cases hlast
        · rw [heq, hlast, Option.some.injEq] at hm
          rw [hm, ← heq]
    | none =>
      refine ih.trans ⟨?_, ?_⟩
      · rintro ⟨⟨hpos, hle, hm⟩, hlonger⟩
        refine ⟨⟨hpos, Nat.le_succ_of_le hle, hm⟩, fun k hlt hk => ?_⟩
        rcases Nat.lt_or_eq_of_le hk with hk | rfl
        · exact hlonger k hlt (Nat.le_of_lt_succ hk)
        · exact hlast
      · rintro ⟨⟨hpos, hle, hm⟩, hlonger⟩
        have hne : m.length ≠ n + 1 := by
          intro heq
          rw [heq, hlast] at hm
          cases hm
        exact ⟨⟨hpos, by omega, hm⟩, fun k hlt hk => hlonger k hlt (Nat.le_succ_of_le hk)⟩

/-- There is no longest match when no token is recognized for any beginning. -/
theorem longestMatch_eq_none_iff :
    a.longestMatch s = none ↔ ∀ k, 0 < k → k ≤ s.length → a.recognized? (s.take k) = none :=
  longestUpTo_eq_none_iff

/-- The longest match has characters, its token is recognized for them, and none is
recognized for a longer beginning. -/
theorem longestMatch_eq_some_iff :
    a.longestMatch s = some m ↔
      (0 < m.length ∧ m.length ≤ s.length ∧ a.recognized? (s.take m.length) = some m.id) ∧
        ∀ k, m.length < k → k ≤ s.length → a.recognized? (s.take k) = none :=
  longestUpTo_eq_some_iff

/-- The match that is cut off in front of a text that is not empty has characters, and no
more than there are. -/
theorem bounds_longestMatch (a : Automaton) (hs : s ≠ []) :
    0 < ((a.longestMatch s).getD Tokenizer.unmatched).length ∧
      ((a.longestMatch s).getD Tokenizer.unmatched).length ≤ s.length := by
  cases hmatch : a.longestMatch s with
  | none => exact ⟨Nat.one_pos, List.length_pos_iff.mpr hs⟩
  | some m =>
    obtain ⟨⟨hpos, hle, -⟩, -⟩ := longestMatch_eq_some_iff.mp hmatch
    exact ⟨hpos, hle⟩

/-! ## The tokens -/

/-- The tokens of a text that starts at some place: the longest matches, and single
characters where there is none. -/
def munch (a : Automaton) (p : Position) : List Char → List Token
  | [] => []
  | c :: s =>
    let found := (a.longestMatch (c :: s)).getD Tokenizer.unmatched
    let text := c :: s.take (found.length - 1)
    ⟨found.id, String.ofList text, p⟩ :: munch a (p.advance text) (s.drop (found.length - 1))
termination_by s => s.length
decreasing_by
  simp only [List.length_drop, List.length_cons]
  omega

/-- The tokens of a text without those that are dropped. -/
def stream (a : Automaton) (skipId : Option Int) (p : Position) (s : List Char) : List Token :=
  (a.munch p s).filter fun token => skipId != some token.id

/-- An automaton for words of two letters, with blanks between them. -/
def letterWords : Automaton where
  graph := ⟨#[
    ⟨false, [⟨CodeSet.firstLetters, 1⟩, ⟨CodeSet.single 32, 2⟩]⟩,
    ⟨false, [⟨CodeSet.single (Code.marker 0), 3⟩, ⟨CodeSet.firstLetters, 1⟩]⟩,
    ⟨false, [⟨CodeSet.single (Code.marker 1), 3⟩]⟩,
    State.bare true]⟩
  names := #["WORD", "WS"]
  rows := #[⟨[⟨32, 33, 2⟩, ⟨97, 99, 1⟩], unknownToken⟩, ⟨[⟨97, 99, 1⟩], 0⟩, ⟨[], 1⟩, Row.empty]
  rows_eq := by
    refine mapM_eq_ok_iff.mpr (.cons ?_ (.cons ?_ (.cons ?_ (.cons ?_ .nil))))
    · exact Row.ofState_of_foldlM ⟨[⟨97, 99, 1⟩, ⟨32, 33, 2⟩], unknownToken⟩ rfl
        (by simp [List.mergeSort]) rfl
    · exact Row.ofState_of_foldlM ⟨[⟨97, 99, 1⟩], 0⟩ rfl (List.mergeSort_singleton _) rfl
    · exact Row.ofState_of_foldlM ⟨[], 1⟩ rfl List.mergeSort_nil rfl
    · exact Row.ofState_of_foldlM Row.empty rfl List.mergeSort_nil rfl

example : letterWords.stream (some 1) Position.first "ab a?b".toList =
    [⟨0, "ab", ⟨1, 1⟩⟩, ⟨0, "a", ⟨1, 4⟩⟩, ⟨unknownToken, "?", ⟨1, 5⟩⟩, ⟨0, "b", ⟨1, 6⟩⟩] := by
  decide +kernel

/-! ## Scans -/

section Scan

variable (hstart : a.accepting a.start = none)
include hstart

/-- A match is found along a walk where its token is recognized. -/
theorem found_start_iff : a.Found a.start 0 s n m ↔
    0 < n ∧ n ≤ s.length ∧ a.recognized? (s.take n) = some m.id ∧ m.length = n := by
  simp only [Found, recognized?, Option.bind_eq_some_iff, Nat.zero_add]
  constructor
  · rintro ⟨hle, j, hwalk, haccepting, hlength⟩
    refine ⟨Nat.pos_of_ne_zero fun hzero => ?_, hle, ⟨j, hwalk, haccepting⟩, hlength⟩
    subst hzero
    rw [List.take_zero, walk_nil, Option.some.injEq] at hwalk
    subst hwalk
    rw [hstart] at haccepting
    cases haccepting
  · rintro ⟨-, hle, ⟨j, hwalk, haccepting⟩, hlength⟩
    exact ⟨hle, j, hwalk, haccepting, hlength⟩

/-- A scan of a text finds its longest match. -/
theorem scan_eq_longestMatch (s : List Char) :
    scan a (s.map CharEvent.char) = .matched (a.longestMatch s) := by
  obtain ⟨result, hresult, hlatest⟩ := a.latest_scanFrom a.start 0 none s
  simp only [Latest, found_start_iff hstart] at hlatest
  have hlongest : a.longestMatch s = result := by
    rcases hlatest with ⟨rfl, hnone⟩ | ⟨n, m, rfl, ⟨hpos, hle, hid, hlength⟩, hlast⟩
    · refine longestMatch_eq_none_iff.mpr fun k hpos hle => ?_
      cases hid : a.recognized? (s.take k) with
      | none => rfl
      | some id => exact absurd ⟨hpos, hle, hid, rfl⟩ (hnone k ⟨id, k⟩)
    · subst hlength
      refine longestMatch_eq_some_iff.mpr ⟨⟨hpos, hle, hid⟩, fun k hlt hk => ?_⟩
      cases hid' : a.recognized? (s.take k) with
      | none => rfl
      | some id =>
        have hle := hlast k ⟨id, k⟩ ⟨Nat.lt_of_le_of_lt (Nat.zero_le _) hlt, hk, hid', rfl⟩
        omega
  rw [scan, hresult, hlongest]

end Scan
end Automaton
end Munch

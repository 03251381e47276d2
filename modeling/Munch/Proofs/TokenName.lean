import Munch.Text.Blank
import Munch.TokenName

/-!
# Names in texts

Where a name ends in a text is seen from its characters: they are letters, digits and low lines,
so no blank is among them.

Main results:

- Theorem {lit}`span_append`: the longest front of one kind of characters.
- Theorem {lit}`isBlank_eq_false_of_isNameChar`: names have no blanks.
-/

namespace Munch

/-- A name is made of name characters. -/
theorem forall_isNameChar {name : List Char} (h : isNameList name = true) :
    ∀ c ∈ name, isNameChar c = true := by
  cases name with
  | nil => simp
  | cons c name =>
    simp only [isNameList, Bool.and_eq_true, List.all_eq_true] at h
    exact List.forall_mem_cons.mpr ⟨isNameChar_of_isNameStart h.1, h.2⟩

/-- The longest front of a kind of characters ends where another kind begins. -/
theorem span_append {p : Char → Bool} {name rest : List Char} (hname : ∀ c ∈ name, p c = true)
    (hrest : ∀ c, rest.head? = some c → p c = false) :
    (name ++ rest).takeWhile p = name ∧ (name ++ rest).dropWhile p = rest := by
  rw [List.takeWhile_append_of_pos hname, List.dropWhile_append_of_pos hname]
  cases rest with
  | nil => simp
  | cons c rest => simp [hrest c rfl]

/-- The characters of names by their codes. -/
theorem toNat_of_isNameChar {c : Char} (h : isNameChar c = true) :
    c.toNat = 95 ∨ (48 ≤ c.toNat ∧ c.toNat ≤ 57) ∨ (65 ≤ c.toNat ∧ c.toNat ≤ 90) ∨
      (97 ≤ c.toNat ∧ c.toNat ≤ 122) := by
  change (decide (c = '_') || ((decide (65 ≤ c.val ∧ c.val ≤ 90) ||
    (decide (97 ≤ c.val) && decide (c.val ≤ 122))) ||
      (decide (48 ≤ c.val) && decide (c.val ≤ 57)))) = true at h
  simp only [Bool.or_eq_true, Bool.and_eq_true, decide_eq_true_eq, UInt32.le_iff_toNat_le] at h
  rcases h with rfl | (h | h) | h
  · exact Or.inl rfl
  · exact Or.inr (Or.inr (Or.inl h))
  · exact Or.inr (Or.inr (Or.inr h))
  · exact Or.inr (Or.inl h)

/-- No name character is blank. -/
theorem isBlank_eq_false_of_isNameChar {c : Char} (h : isNameChar c = true) :
    isBlank c = false := by
  have hcode := toNat_of_isNameChar h
  simp only [isBlank, Bool.or_eq_false_iff, Bool.and_eq_false_iff, decide_eq_false_iff_not]
  omega

end Munch

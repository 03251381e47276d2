import Mathlib.Logic.Basic
import Mathlib.Tactic.ByContra
import Munch.Halving

/-!
# What halving finds

In a list in order, halving finds the end of the front that has a property, which is the number of
places where the property holds.

Main results:

- Theorem {lit}`partitionPointFrom_eq`: halving finds the end of the front of a list.
- Theorem {lit}`partitionPoint_toArray`: it counts the places where the property holds.
-/

namespace Munch

variable {α : Type} {p : α → Bool} {xs : Array α} {k : Nat}

/-- Halving finds the place up to which the property holds, if that is one of the places looked at
or the one behind them. -/
theorem partitionPointFrom_eq (hp : ∀ i, xs[i]?.any p = true ↔ i < k) {base size : Nat}
    (hbase : base ≤ k) (hsize : k ≤ base + size) : partitionPointFrom p xs base size = k := by
  fun_induction partitionPointFrom p xs base size with
  | case1 base size hshort hany =>
    have hlt := (hp base).mp hany
    omega
  | case2 base size hshort hany =>
    have hle := mt (hp base).mpr hany
    omega
  | case3 base size hlong half next ih =>
    -- The end stays between `base` and the place behind the last one on either half.
    by_cases hany : xs[base + half]?.any p = true
    · have hlt := (hp _).mp hany
      have hnext : next = base + half := if_pos hany
      rw [hnext] at ih ⊢
      exact ih (by omega) (by omega)
    · have hle := mt (hp _).mpr hany
      have hnext : next = base := if_neg hany
      rw [hnext] at ih ⊢
      exact ih hbase (by omega)

theorem partitionPoint_eq (hp : ∀ i, xs[i]?.any p = true ↔ i < k) : partitionPoint p xs = k := by
  refine partitionPointFrom_eq hp (Nat.zero_le k) ?_
  by_contra hlt
  have hany := (hp xs.size).mpr (by omega)
  simp at hany

/-- If a property holds in front of every place where it holds, its places are the first ones. -/
theorem any_getElem?_iff_lt {l : List α} (hl : l.Pairwise fun a b => p b = true → p a = true)
    (i : Nat) : l[i]?.any p = true ↔ i < l.countP p := by
  induction l generalizing i with
  | nil => simp
  | cons a l ih =>
    obtain ⟨hfirst, hrest⟩ := List.pairwise_cons.mp hl
    by_cases ha : p a = true
    · rw [List.countP_cons_of_pos ha]
      cases i with
      | zero => simp [ha]
      | succ i => rw [List.getElem?_cons_succ, ih hrest, Nat.add_lt_add_iff_right]
    · have hnone : ∀ b ∈ a :: l, ¬p b = true :=
        List.forall_mem_cons.mpr ⟨ha, fun b hb hpb => ha (hfirst b hb hpb)⟩
      rw [List.countP_eq_zero.mpr hnone]
      refine iff_of_false (fun hany => ?_) (Nat.not_lt_zero i)
      obtain ⟨b, hb, hpb⟩ := (Option.any_eq_true _ _).mp hany
      exact hnone b (List.mem_of_getElem? hb) hpb

/-- Halving counts the places where such a property holds. -/
theorem partitionPoint_toArray {l : List α} (hl : l.Pairwise fun a b => p b = true → p a = true) :
    partitionPoint p l.toArray = l.countP p :=
  partitionPoint_eq fun i => by rw [List.getElem?_toArray, any_getElem?_iff_lt hl]

end Munch

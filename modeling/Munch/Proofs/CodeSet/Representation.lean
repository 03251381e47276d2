import Mathlib.Data.Int.Interval
import Mathlib.Data.Set.Card
import Mathlib.Tactic.TFAE
import Munch.Proofs.CodeSet.Operations
import Munch.Proofs.Halving

/-!
# One representation of every set

Boundaries that differ tell sets apart at one of them, so comparing, ordering and hashing
boundaries is comparing, ordering and hashing sets.  What is read off the boundaries, such as the
number of codes, is then a property of the set.

Main results:

- Theorem {lit}`CodeSet.contains_eq_partitionPoint`: membership is found by halving.
- Theorem {lit}`CodeSet.eq_of_forall_within`: sets within some bounds are told apart within them.
- Theorem {lit}`CodeSet.cardinality_eq`: the lengths of the ranges count the codes.
- Theorem {lit}`CodeSet.representation_canonical`: every set has one representation.
-/

namespace Munch
namespace CodeSet

variable {s t : CodeSet} {v : Int}

/-! ## Membership -/

/-- A code is in a set if the boundaries that are not behind it, counted by halving, are odd in
number. -/
theorem contains_eq_partitionPoint (s : CodeSet) (code : Int) :
    s.contains code =
      decide (partitionPoint (fun b => decide (b ≤ code)) s.boundaries.toArray % 2 = 1) := by
  have hfront : s.boundaries.Pairwise fun a b =>
      decide (b ≤ code) = true → decide (a ≤ code) = true := by
    refine s.increasing.imp fun {a b} hab hb => ?_
    simp only [decide_eq_true_eq] at hb ⊢
    omega
  rw [partitionPoint_toArray hfront, contains, insideAt_eq_countP s.increasing, Bool.false_xor]

/-- No code from the last boundary on is in a set. -/
theorem contains_eq_false_of_forall_le {code : Int} (h : ∀ b ∈ s.boundaries, b ≤ code) :
    s.contains code = false := by
  refine not_mem_iff.mp fun hmem => ?_
  obtain ⟨b, hb, hlt⟩ := exists_boundary_of_mem hmem
  have hle := h b hb
  omega

/-- Sets whose boundaries lie within some bounds are equal if they have the same members among the
codes there. -/
theorem eq_of_forall_within {lower upper : Int}
    (hbounds : ∀ b ∈ s.boundaries ++ t.boundaries, lower ≤ b ∧ b ≤ upper)
    (h : ∀ code, lower ≤ code → code < upper → s.contains code = t.contains code) : s = t := by
  refine eq_of_forall_boundary fun code hcode => ?_
  obtain ⟨hlower, hupper⟩ := hbounds code hcode
  rcases Int.lt_or_eq_of_le hupper with hlt | rfl
  · exact h code hlower hlt
  · -- The upper bound itself can be a boundary, but not a code of either set.
    obtain ⟨hs, ht⟩ := List.forall_mem_append.mp hbounds
    rw [contains_eq_false_of_forall_le fun b hb => (hs b hb).2,
      contains_eq_false_of_forall_le fun b hb => (ht b hb).2]

/-- Sets of the same members are equal. -/
theorem members_eq_iff : s.members = t.members ↔ s = t := by
  constructor
  · intro h
    exact eq_of_forall_mem_iff (Set.ext_iff.mp h)
  · exact congrArg members

/-! ## The least code -/

/-- The first code is the least member. -/
theorem first?_eq_some_iff : s.first? = some v ↔ IsLeast s.members v := by
  constructor
  · intro h
    exact ⟨mem_of_first? h, fun code hcode => le_of_first? h hcode⟩
  · rintro ⟨hv, hle⟩
    obtain ⟨first, hfirst, hfirst'⟩ := exists_first?_of_mem hv
    rw [hfirst, Int.le_antisymm hfirst' (hle (mem_of_first? hfirst))]

/-- There is no first code iff there is no member. -/
theorem first?_eq_none_iff : s.first? = none ↔ s.members = ∅ := by
  rw [Set.eq_empty_iff_forall_notMem]
  constructor
  · intro h code hcode
    obtain ⟨first, hfirst, -⟩ := exists_first?_of_mem hcode
    rw [h] at hfirst
    cases hfirst
  · intro h
    cases hfirst : s.first? with
    | none => rfl
    | some code => exact absurd (mem_of_first? hfirst) (h code)

/-! ## Sets of one code -/

/-- A single code has one member. -/
theorem members_single (v : Int) : (single v).members = {v} := by
  ext code
  rw [mem_members, mem_single, Set.mem_singleton_iff]

/-! ## The number of codes -/

/-- Ranges in order with gaps between them have as many codes as their lengths say. -/
theorem exists_finset_ranges {rs : List (Int × Int)} (hlt : ∀ r ∈ rs, r.1 < r.2)
    (hgap : rs.Pairwise fun r t => r.2 < t.1) :
    ∃ found : Finset Int, (∀ c, c ∈ found ↔ ∃ r ∈ rs, r.1 ≤ c ∧ c < r.2) ∧
      rs.foldr (fun r n => r.2 - r.1 + n) 0 = (found.card : Int) := by
  induction rs with
  | nil => exact ⟨∅, by simp, rfl⟩
  | cons r rs ih =>
    obtain ⟨hr, hlt⟩ := List.forall_mem_cons.mp hlt
    obtain ⟨hbehind, hgap⟩ := List.pairwise_cons.mp hgap
    obtain ⟨found, hfound, hcard⟩ := ih hlt hgap
    have hdisjoint : Disjoint (Finset.Ico r.1 r.2) found := by
      refine Finset.disjoint_left.mpr fun c hc hmem => ?_
      obtain ⟨t, ht, hle, -⟩ := (hfound c).mp hmem
      have hupper := (Finset.mem_Ico.mp hc).2
      have hnext := hbehind t ht
      omega
    refine ⟨(Finset.Ico r.1 r.2).disjUnion found hdisjoint, fun c => ?_, ?_⟩
    · rw [Finset.mem_disjUnion, Finset.mem_Ico, hfound, List.exists_mem_cons_iff]
    · rw [List.foldr_cons, hcard, Finset.card_disjUnion, Int.card_Ico, Nat.cast_add,
        Int.toNat_of_nonneg (by omega)]

/-- The codes of a set are finite in number, and the number is the sum of the lengths of its
ranges. -/
theorem cardinality_eq (s : CodeSet) : s.members.Finite ∧ s.cardinality = s.members.ncard := by
  obtain ⟨found, hfound, hcard⟩ := exists_finset_ranges (fun r hr => lt_of_mem_ranges hr)
    (pairwise_pairUp s.increasing)
  have hmembers : s.members = found := by
    ext c
    rw [mem_members, mem_iff_exists_range, Finset.mem_coe, hfound]
  rw [hmembers, Set.ncard_coe_finset]
  exact ⟨found.finite_toSet, hcard⟩

/-! ## One representation -/

/-- Sets with the same members have the same boundaries; it is enough to look at the codes that are
boundaries, or at those within bounds of these.  Such sets are equal, compare as equal and are one
key of any table.  What is read off the boundaries is how many codes a set has, which of them is
the least, and whether it is the only one. -/
theorem representation_canonical :
    (∀ s t : CodeSet,
      [∀ code, s.contains code = t.contains code,
        ∀ code ∈ s.boundaries ++ t.boundaries, s.contains code = t.contains code,
        s.members = t.members, s.boundaries = t.boundaries, s = t, (s == t) = true,
        compare s t = .eq].TFAE ∧
      (∀ lower upper, (∀ b ∈ s.boundaries ++ t.boundaries, lower ≤ b ∧ b ≤ upper) →
        (∀ code, lower ≤ code → code < upper → s.contains code = t.contains code) →
          s.boundaries = t.boundaries) ∧
      (s.members = t.members → hash s = hash t) ∧
      ∀ (β : Type) (table : Std.HashMap CodeSet β) (value : β),
        (s.members = t.members → (table.insert s value)[t]? = some value) ∧
          (s.members ≠ t.members → (table.insert s value)[t]? = table[t]?)) ∧
    ∀ s : CodeSet,
      (∀ code, s.contains code =
        decide (partitionPoint (fun b => decide (b ≤ code)) s.boundaries.toArray % 2 = 1)) ∧
      s.members.Finite ∧ s.cardinality = s.members.ncard ∧
      (∀ v, s.single? = some v ↔ s.members = {v}) ∧
      (∀ v, s.first? = some v ↔ IsLeast s.members v) ∧ (s.first? = none ↔ s.members = ∅) := by
  refine ⟨fun s t => ⟨?_, fun lower upper hbounds h => ?_, fun h => ?_, fun β table value => ?_⟩,
    fun s => ⟨s.contains_eq_partitionPoint, s.cardinality_eq.1, s.cardinality_eq.2, fun v => ?_,
      fun v => first?_eq_some_iff, first?_eq_none_iff⟩⟩
  · tfae_have 1 → 2 := fun h code _ => h code
    tfae_have 2 → 5 := eq_of_forall_boundary
    tfae_have 5 → 1 := fun h code => by rw [h]
    tfae_have 3 ↔ 5 := members_eq_iff
    tfae_have 4 ↔ 5 := ⟨eq_of_boundaries_eq, congrArg boundaries⟩
    tfae_have 6 ↔ 5 := beq_iff_eq
    tfae_have 7 ↔ 5 := Std.LawfulEqOrd.compare_eq_iff_eq
    tfae_finish
  · rw [eq_of_forall_within hbounds h]
  · rw [members_eq_iff.mp h]
  · rw [Std.HashMap.getElem?_insert]
    refine ⟨fun h => ?_, fun h => ?_⟩
    · rw [if_pos (beq_iff_eq.mpr (members_eq_iff.mp h))]
    · rw [if_neg fun heq => h (members_eq_iff.mpr (beq_iff_eq.mp heq))]
  · rw [single?_eq_some_iff, ← members_eq_iff, members_single]

end CodeSet
end Munch

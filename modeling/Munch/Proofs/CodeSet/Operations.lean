import Mathlib.Data.List.Basic
import Mathlib.Data.List.TakeWhile
import Mathlib.Order.ConditionallyCompleteLattice.Basic
import Mathlib.Data.Int.ConditionallyCompleteOrder
import Munch.CodeSet.InPlace
import Munch.Proofs.CodeSet.Canonical

/-!
# Operations on sets of codes

Changes at one place leave increasing boundaries with the memberships of set algebra, so they
find the boundaries that a sweep over both sets finds.

Main results:

- Theorem {lit}`CodeSet.mem_iff_countP`: a code is in a set if an odd number of boundaries
  is not behind it.
- Theorems {lit}`CodeSet.replaced_boundaries`, {lit}`CodeSet.toggled_boundaries`,
  {lit}`CodeSet.inserted_boundaries` and {lit}`CodeSet.addedAll_boundaries`: changes at one
  place give the boundaries of set algebra.
- Theorem {lit}`CodeSet.members_run_edits`: what any sequence of operations leaves.
-/

namespace Munch

/-! ## Counting boundaries -/

/-- A code changes sides with every boundary that is not behind it. -/
theorem insideAt_eq_countP {inside : Bool} {bs : List Int} (hbs : bs.Pairwise (· < ·))
    (code : Int) :
    insideAt inside bs code = (inside ^^ decide (bs.countP (· ≤ code) % 2 = 1)) := by
  induction bs generalizing inside with
  | nil => simp [insideAt]
  | cons b bs ih =>
    rw [insideAt]
    by_cases hcode : code < b
    · have hnone : (b :: bs).countP (· ≤ code) = 0 := by
        rw [List.countP_eq_zero]
        intro x hx
        have hlt := lt_of_mem_cons hcode hbs x hx
        simpa using hlt
      simp [hcode, hnone]
    · have hle : b ≤ code := Int.not_lt.mp hcode
      rw [if_neg hcode, ih (List.pairwise_cons.mp hbs).2, List.countP_cons_of_pos (by simpa using hle)]
      rcases Nat.mod_two_eq_zero_or_one (bs.countP (· ≤ code)) with heven | hodd
      · have hsucc : (bs.countP (· ≤ code) + 1) % 2 = 1 := by omega
        simp [heven, hsucc]
      · have hsucc : (bs.countP (· ≤ code) + 1) % 2 = 0 := by omega
        simp [hodd, hsucc]

/-- What is left of an increasing list from the first number that is not below a limit. -/
theorem not_of_mem_dropWhile {p : Int → Bool} {bs : List Int} (hbs : bs.Pairwise (· < ·))
    (hp : ∀ x y, x < y → p y = true → p x = true) :
    ∀ b ∈ bs.dropWhile p, p b = false := by
  induction bs with
  | nil => simp
  | cons a bs ih =>
    intro b hb
    rcases List.pairwise_cons.mp hbs with ⟨hfirst, hrest⟩
    by_cases ha : p a = true
    · rw [List.dropWhile_cons_of_pos ha] at hb
      exact ih hrest b hb
    · rw [List.dropWhile_cons_of_neg ha] at hb
      rcases List.mem_cons.mp hb with rfl | hb
      · exact Bool.eq_false_iff.mpr ha
      · apply Bool.eq_false_iff.mpr
        intro hpb
        exact ha (hp a b (hfirst b hb) hpb)

namespace CodeSet

/-- A code is in a set if an odd number of boundaries is not behind it. -/
theorem mem_iff_countP {s : CodeSet} {code : Int} :
    code ∈ s ↔ s.boundaries.countP (· ≤ code) % 2 = 1 := by
  rw [mem_iff, contains, insideAt_eq_countP s.increasing]
  simp

/-- Increasing boundaries with the memberships of a set are those of the set. -/
theorem eq_boundaries_of_countP {bs : List Int} {s : CodeSet} (hbs : bs.Pairwise (· < ·))
    (h : ∀ code, bs.countP (· ≤ code) % 2 = 1 ↔ code ∈ s) : bs = s.boundaries := by
  have heq : ∀ code, insideAt false bs code = insideAt false s.boundaries code := by
    intro code
    rw [insideAt_eq_countP hbs, insideAt_eq_countP s.increasing, Bool.false_xor, Bool.false_xor]
    exact decide_eq_decide.mpr ((h code).trans mem_iff_countP)
  exact eq_of_forall_insideAt_eq hbs s.increasing fun code _ => heq code

theorem isIncreasing_of_pairwise {bs : List Int} (hbs : bs.Pairwise (· < ·)) :
    isIncreasing bs = true := by
  induction bs with
  | nil => rfl
  | cons a bs ih =>
    rcases List.pairwise_cons.mp hbs with ⟨hfirst, hrest⟩
    cases bs with
    | nil => rfl
    | cons b bs =>
      rw [isIncreasing, ih hrest, decide_eq_true (hfirst b List.mem_cons_self)]
      rfl

/-! ## Boundaries around a range -/

/-- Boundaries cut at the ends of a range, from `first` up to and including `last`. -/
structure Around (bs : List Int) (first last : Int) (below within above : List Int) : Prop where
  split : bs = below ++ (within ++ above)
  lt_first : ∀ b ∈ below, b < first
  first_le : ∀ b ∈ within, first ≤ b
  le_last : ∀ b ∈ within, b ≤ last
  last_lt : ∀ b ∈ above, last < b

theorem around_of_lt {bs : List Int} (hbs : bs.Pairwise (· < ·)) (first last : Int) :
    Around bs first last (bs.takeWhile (· < first))
      ((bs.dropWhile (· < first)).takeWhile (· ≤ last))
      ((bs.dropWhile (· < first)).dropWhile (· ≤ last)) where
  split := by rw [List.takeWhile_append_dropWhile, List.takeWhile_append_dropWhile]
  lt_first b hb := by simpa using List.mem_takeWhile_imp hb
  first_le b hb := by
    have hmem := (List.takeWhile_prefix _).subset hb
    have hnot := not_of_mem_dropWhile (p := (· < first)) hbs
      (fun x y hxy hy => by simp only [decide_eq_true_eq] at hy ⊢; omega) b hmem
    simpa using hnot
  le_last b hb := by simpa using List.mem_takeWhile_imp hb
  last_lt b hb := by
    have hrest := hbs.sublist (List.dropWhile_sublist (· < first))
    have hnot := not_of_mem_dropWhile (p := (· ≤ last)) hrest
      (fun x y hxy hy => by simp only [decide_eq_true_eq] at hy ⊢; omega) b hb
    simpa using hnot

/-- The cut behind a boundary is the cut in front of the next code. -/
theorem around_of_le {bs : List Int} (hbs : bs.Pairwise (· < ·)) (lower upper : Int) :
    Around bs (lower + 1) upper (bs.takeWhile (· ≤ lower))
      ((bs.dropWhile (· ≤ lower)).takeWhile (· ≤ upper))
      ((bs.dropWhile (· ≤ lower)).dropWhile (· ≤ upper)) := by
  have hsame : (fun b : Int => decide (b ≤ lower)) = fun b => decide (b < lower + 1) := by
    funext b
    exact decide_eq_decide.mpr Int.lt_add_one_iff.symm
  rw [hsame]
  exact around_of_lt hbs (lower + 1) upper

namespace Around

variable {bs below within above mid : List Int} {first last code : Int}
  (h : Around bs first last below within above)
include h

/-- Boundaries within the range can be exchanged for others. -/
theorem pairwise (hbs : bs.Pairwise (· < ·)) (hmid : mid.Pairwise (· < ·))
    (hends : first ≤ last + 1) (hfirst : ∀ b ∈ mid, first ≤ b) (hlast : ∀ b ∈ mid, b ≤ last) :
    (below ++ (mid ++ above)).Pairwise (· < ·) := by
  rw [h.split] at hbs
  rcases List.pairwise_append.mp hbs with ⟨hbelow, hrest, -⟩
  apply List.pairwise_append.mpr
  refine ⟨hbelow, List.pairwise_append.mpr ⟨hmid, (List.pairwise_append.mp hrest).2.1, ?_⟩, ?_⟩
  · intro x hx y hy
    have hle := hlast x hx
    have hlt := h.last_lt y hy
    omega
  · intro x hx y hy
    have hlow := h.lt_first x hx
    rcases List.mem_append.mp hy with hy | hy
    · have hle := hfirst y hy
      omega
    · have hlt := h.last_lt y hy
      omega

/-- In front of the range only boundaries below it count. -/
theorem countP_of_lt (hcode : code < first) (hends : first ≤ last + 1) :
    within.countP (· ≤ code) = 0 ∧ above.countP (· ≤ code) = 0 := by
  rw [List.countP_eq_zero, List.countP_eq_zero]
  constructor
  · intro b hb
    have hle := h.first_le b hb
    simp only [decide_eq_true_eq]
    omega
  · intro b hb
    have hlt := h.last_lt b hb
    simp only [decide_eq_true_eq]
    omega

/-- In the range all boundaries below it count, and none above it. -/
theorem countP_below (hcode : first ≤ code) : below.countP (· ≤ code) = below.length := by
  rw [List.countP_eq_length]
  intro b hb
  have hlt := h.lt_first b hb
  simp only [decide_eq_true_eq]
  omega

theorem countP_above (hcode : code ≤ last) : above.countP (· ≤ code) = 0 := by
  rw [List.countP_eq_zero]
  intro b hb
  have hlt := h.last_lt b hb
  simp only [decide_eq_true_eq]
  omega

/-- At the end of the range and behind it all boundaries within it count. -/
theorem countP_within (hcode : last ≤ code) : within.countP (· ≤ code) = within.length := by
  rw [List.countP_eq_length]
  intro b hb
  have hle := h.le_last b hb
  simp only [decide_eq_true_eq]
  omega

end Around

/-! ## Adding and removing a range -/

theorem mem_boundaryIf {made : Bool} {b x : Int} (hx : x ∈ boundaryIf made b) : x = b := by
  cases made with
  | false => cases hx
  | true => exact List.mem_singleton.mp hx

theorem countP_boundaryIf (made : Bool) (b code : Int) :
    (boundaryIf made b).countP (· ≤ code) = if made = true ∧ b ≤ code then 1 else 0 := by
  by_cases hcode : b ≤ code <;> cases made <;> simp [boundaryIf, hcode]

section Replaced

variable {bs : List Int} {lower upper : Int} (hbs : bs.Pairwise (· < ·)) (hlt : lower < upper)
include hbs hlt

theorem pairwise_replaced (added : Bool) : (replaced added lower upper bs).Pairwise (· < ·) := by
  refine (around_of_lt hbs lower upper).pairwise hbs ?_ (by omega) ?_ ?_
  · apply List.pairwise_append.mpr
    refine ⟨?_, ?_, ?_⟩
    · unfold boundaryIf
      split <;> simp
    · unfold boundaryIf
      split <;> simp
    · intro x hx y hy
      rw [mem_boundaryIf hx, mem_boundaryIf hy]
      exact hlt
  · intro b hb
    rcases List.mem_append.mp hb with hb | hb
    · exact Int.le_of_eq (mem_boundaryIf hb).symm
    · exact (mem_boundaryIf hb).symm ▸ Int.le_of_lt hlt
  · intro b hb
    rcases List.mem_append.mp hb with hb | hb
    · exact (mem_boundaryIf hb).symm ▸ Int.le_of_lt hlt
    · exact Int.le_of_eq (mem_boundaryIf hb)

/-- Within the range all codes get one membership, and outside nothing changes. -/
theorem countP_replaced (added : Bool) (code : Int) :
    (replaced added lower upper bs).countP (· ≤ code) % 2 = 1 ↔
      if lower ≤ code ∧ code < upper then added = true else bs.countP (· ≤ code) % 2 = 1 := by
  have haround := around_of_lt hbs lower upper
  have hcount := congrArg (List.countP (· ≤ code)) haround.split
  unfold replaced
  generalize bs.takeWhile (· < lower) = below at *
  generalize (bs.dropWhile (· < lower)).takeWhile (· ≤ upper) = within at *
  generalize (bs.dropWhile (· < lower)).dropWhile (· ≤ upper) = above at *
  simp only [List.countP_append, countP_boundaryIf, List.length_append] at hcount ⊢
  by_cases hlow : code < lower
  · have hnone := haround.countP_of_lt hlow (by omega)
    have hlower : ¬lower ≤ code := Int.not_le.mpr hlow
    have hupper : ¬upper ≤ code := by omega
    simp only [hlower, hupper, hnone, hcount, and_false, false_and, if_false]
  · have hlower : lower ≤ code := Int.not_lt.mp hlow
    rw [haround.countP_below hlower] at hcount ⊢
    by_cases hup : code < upper
    · have hupper : ¬upper ≤ code := Int.not_le.mpr hup
      rw [haround.countP_above (Int.le_of_lt hup)]
      simp only [hlower, hup, hupper, and_true, and_false, and_self, if_true, if_false]
      cases added <;> rcases Nat.mod_two_eq_zero_or_one below.length with hpar | hpar <;>
        simp [hpar] <;> omega
    · have hupper : upper ≤ code := Int.not_lt.mp hup
      rw [haround.countP_within hupper] at hcount
      simp only [hlower, hup, hupper, and_true, and_false, if_false, hcount]
      cases added <;> rcases Nat.mod_two_eq_zero_or_one below.length with hpar | hpar <;>
        rcases Nat.mod_two_eq_zero_or_one (below.length + within.length) with hpar' | hpar' <;>
          simp [hpar, hpar'] <;> omega

end Replaced

/-! ## Toggling a range and adding a code -/

section ToggleEnds

variable {bs : List Int} {b : Int} (hbs : bs.Pairwise (· < ·))

theorem countP_toggleEnd (bs : List Int) (b code : Int) :
    (toggleEnd bs b).countP (· ≤ code) % 2 =
      (bs.countP (· ≤ code) + if b ≤ code then 1 else 0) % 2 := by
  unfold toggleEnd
  split
  · rename_i hlast
    have hsplit : bs.dropLast ++ [b] = bs := List.dropLast_append_getLast? b hlast
    have hcount := congrArg (List.countP (· ≤ code)) hsplit
    rw [List.countP_append, List.countP_singleton] at hcount
    by_cases hcode : b ≤ code <;> simp only [hcode, decide_true, decide_false, if_true, if_false,
      Bool.false_eq_true] at hcount ⊢ <;> omega
  · rw [List.countP_append, List.countP_singleton]
    simp

theorem countP_toggleFront (b code : Int) (bs : List Int) :
    (toggleFront b bs).countP (· ≤ code) % 2 =
      (bs.countP (· ≤ code) + if b ≤ code then 1 else 0) % 2 := by
  unfold toggleFront
  split
  · rename_i hhead
    rcases List.head?_eq_some_iff.mp hhead with ⟨rest, rfl⟩
    rw [List.tail_cons, List.countP_cons]
    by_cases hcode : b ≤ code <;> simp only [hcode, decide_true, decide_false, if_true, if_false,
      Bool.false_eq_true] <;> omega
  · rw [List.countP_cons]
    simp

include hbs

/-- A list up to a boundary stays increasing, and goes up to the boundary. -/
theorem pairwise_toggleEnd (hle : ∀ x ∈ bs, x ≤ b) :
    (toggleEnd bs b).Pairwise (· < ·) ∧ ∀ x ∈ toggleEnd bs b, x ≤ b := by
  unfold toggleEnd
  split
  · exact ⟨hbs.sublist (List.dropLast_sublist bs),
      fun x hx => hle x ((List.dropLast_sublist bs).subset hx)⟩
  · rename_i hlast
    constructor
    · apply List.pairwise_append.mpr
      refine ⟨hbs, List.pairwise_singleton _ _, ?_⟩
      intro x hx y hy
      rw [List.mem_singleton.mp hy]
      apply Int.lt_iff_le_and_ne.mpr ⟨hle x hx, ?_⟩
      -- Only the last number of an increasing list can reach the boundary.
      rintro rfl
      apply hlast
      rcases List.append_of_mem hx with ⟨front, back, rfl⟩
      cases back with
      | nil => simp
      | cons y back =>
        have hxy := (List.pairwise_cons.mp (List.pairwise_append.mp hbs).2.1).1 y (by simp)
        have hyx := hle y (by simp)
        omega
    · intro x hx
      rcases List.mem_append.mp hx with hx | hx
      · exact hle x hx
      · exact Int.le_of_eq (List.mem_singleton.mp hx)

/-- A list from a boundary on stays increasing, and starts no earlier. -/
theorem pairwise_toggleFront (hle : ∀ x ∈ bs, b ≤ x) :
    (toggleFront b bs).Pairwise (· < ·) ∧ ∀ x ∈ toggleFront b bs, b ≤ x := by
  unfold toggleFront
  split
  · exact ⟨hbs.sublist (List.tail_sublist bs),
      fun x hx => hle x ((List.tail_sublist bs).subset hx)⟩
  · rename_i hhead
    constructor
    · apply List.pairwise_cons.mpr
      refine ⟨?_, hbs⟩
      intro x hx
      apply Int.lt_iff_le_and_ne.mpr ⟨hle x hx, ?_⟩
      -- Only the first number of an increasing list can be as small as the boundary.
      rintro rfl
      apply hhead
      cases bs with
      | nil => cases hx
      | cons y bs =>
        rcases List.mem_cons.mp hx with rfl | hx
        · rfl
        · have hyx := (List.pairwise_cons.mp hbs).1 b hx
          have hxy := hle y (by simp)
          omega
    · intro x hx
      rcases List.mem_cons.mp hx with rfl | hx
      · exact Int.le_refl x
      · exact hle x hx

end ToggleEnds

section Toggled

variable {bs : List Int} {lower upper : Int} (hbs : bs.Pairwise (· < ·))
include hbs

theorem pairwise_toggled (hlt : lower < upper) : (toggled lower upper bs).Pairwise (· < ·) := by
  have haround := around_of_le hbs lower upper
  have hbelow : (bs.takeWhile (· ≤ lower)).Pairwise (· < ·) :=
    hbs.sublist (List.takeWhile_sublist _)
  have hfirst := pairwise_toggleEnd hbelow (b := lower) fun x hx => by
    have hlow := haround.lt_first x hx
    omega
  have hrest := hbs
  rw [haround.split] at hrest
  have hparts := List.pairwise_append.mp (List.pairwise_append.mp hrest).2.1
  have hwithin : (toggleEnd (bs.takeWhile (· ≤ lower)) lower ++
      (bs.dropWhile (· ≤ lower)).takeWhile (· ≤ upper)).Pairwise (· < ·) := by
    refine List.pairwise_append.mpr ⟨hfirst.1, hparts.1, fun x hx y hy => ?_⟩
    have hle := hfirst.2 x hx
    have hlow := haround.first_le y hy
    omega
  have hsecond := pairwise_toggleEnd hwithin (b := upper) fun x hx => by
    rcases List.mem_append.mp hx with hx | hx
    · have hle := hfirst.2 x hx
      omega
    · exact haround.le_last x hx
  apply List.pairwise_append.mpr
  refine ⟨hsecond.1, hparts.2.1, ?_⟩
  intro x hx y hy
  have hle := hsecond.2 x hx
  have hlast := haround.last_lt y hy
  omega

/-- Codes of the range change sides. -/
theorem countP_toggled (hlt : lower < upper) (code : Int) :
    (toggled lower upper bs).countP (· ≤ code) % 2 = 1 ↔
      ¬(bs.countP (· ≤ code) % 2 = 1 ↔ lower ≤ code ∧ code < upper) := by
  have hcount := congrArg (List.countP (· ≤ code)) (around_of_le hbs lower upper).split
  have hends : (toggled lower upper bs).countP (· ≤ code) % 2 =
      (bs.countP (· ≤ code) + (if lower ≤ code then 1 else 0) +
        if upper ≤ code then 1 else 0) % 2 := by
    unfold toggled
    have hfirst := countP_toggleEnd (bs.takeWhile (· ≤ lower)) lower code
    have hsecond := countP_toggleEnd (toggleEnd (bs.takeWhile (· ≤ lower)) lower ++
      (bs.dropWhile (· ≤ lower)).takeWhile (· ≤ upper)) upper code
    simp only [List.countP_append] at hcount hsecond ⊢
    omega
  rw [hends]
  clear hends hcount
  by_cases hlower : lower ≤ code
  · by_cases hupper : upper ≤ code
    · simp only [hlower, hupper, Int.not_lt.mpr hupper, if_true, and_false, iff_false, not_not]
      omega
    · simp only [hlower, hupper, Int.not_le.mp hupper, if_true, if_false, and_self, iff_true]
      omega
  · have hupper : ¬upper ≤ code := by omega
    simp only [hlower, hupper, if_false, false_and, iff_false, not_not]
    omega

theorem pairwise_inserted (code : Int) : (inserted code bs).Pairwise (· < ·) := by
  have hbelow : (bs.takeWhile (· ≤ code)).Pairwise (· < ·) :=
    hbs.sublist (List.takeWhile_sublist _)
  have habove : (bs.dropWhile (· ≤ code)).Pairwise (· < ·) :=
    hbs.sublist (List.dropWhile_sublist _)
  have hlast := pairwise_toggleEnd hbelow (b := code) fun x hx => by
    simpa using List.mem_takeWhile_imp hx
  have hfirst := pairwise_toggleFront habove (b := code + 1) fun x hx => by
    have hnot := not_of_mem_dropWhile (p := (· ≤ code)) hbs
      (fun x y hxy hy => by simp only [decide_eq_true_eq] at hy ⊢; omega) x hx
    simp only [decide_eq_false_iff_not] at hnot
    omega
  unfold inserted
  simp only
  split
  · exact hbs
  · apply List.pairwise_append.mpr
    refine ⟨hlast.1, hfirst.1, ?_⟩
    intro x hx y hy
    have hle := hlast.2 x hx
    have hge := hfirst.2 y hy
    omega

/-- Only the code itself can change sides. -/
theorem countP_inserted (code other : Int) :
    (inserted code bs).countP (· ≤ other) % 2 = 1 ↔
      other = code ∨ bs.countP (· ≤ other) % 2 = 1 := by
  have hcount (x : Int) := congrArg (List.countP (· ≤ x))
    (List.takeWhile_append_dropWhile (p := fun b => decide (b ≤ code)) (l := bs)).symm
  simp only [List.countP_append] at hcount
  have hbelow : (bs.takeWhile (· ≤ code)).countP (· ≤ code) =
      (bs.takeWhile (· ≤ code)).length := by
    rw [List.countP_eq_length]
    intro x hx
    simpa using List.mem_takeWhile_imp hx
  have habove : (bs.dropWhile (· ≤ code)).countP (· ≤ code) = 0 := by
    rw [List.countP_eq_zero]
    intro x hx
    have hnot := not_of_mem_dropWhile (p := (· ≤ code)) hbs
      (fun x y hxy hy => by simp only [decide_eq_true_eq] at hy ⊢; omega) x hx
    simpa using hnot
  have hself := hcount code
  rw [hbelow, habove] at hself
  unfold inserted
  simp only
  split
  · rename_i hinside
    by_cases hother : other = code
    · subst hother
      simp only [true_or, iff_true]
      omega
    · simp only [hother, false_or]
  · rename_i houtside
    have hsame := hcount other
    have hends := countP_toggleEnd (bs.takeWhile (· ≤ code)) code other
    have hfront := countP_toggleFront (code + 1) other (bs.dropWhile (· ≤ code))
    rw [List.countP_append]
    by_cases hother : other = code
    · subst hother
      have hnext : ¬other + 1 ≤ other := by omega
      simp only [Int.le_refl, hnext, if_true, if_false, true_or, iff_true] at hends hfront ⊢
      omega
    · simp only [hother, false_or]
      by_cases hle : code ≤ other
      · have hnext : code + 1 ≤ other := by omega
        simp only [hle, hnext, if_true] at hends hfront
        omega
      · have hnext : ¬code + 1 ≤ other := by omega
        simp only [hle, hnext, if_false] at hends hfront
        omega

end Toggled

/-! ## The same sets -/

theorem mem_symmDiff {code : Int} {s t : CodeSet} :
    code ∈ s.symmDiff t ↔ ¬(code ∈ s ↔ code ∈ t) := by
  simp only [mem_iff, contains_symmDiff]
  cases s.contains code <;> cases t.contains code <;> simp

variable {s : CodeSet} {lower upper : Int}

/-- Adding or removing a range at its place gives the boundaries of union or difference. -/
theorem replaced_boundaries (added : Bool) (hlt : lower < upper) :
    replaced added lower upper s.boundaries =
      (if added then s.union (range lower upper hlt)
        else s.diff (range lower upper hlt)).boundaries := by
  apply eq_boundaries_of_countP (pairwise_replaced s.increasing hlt added)
  intro code
  rw [countP_replaced s.increasing hlt, ← mem_iff_countP]
  by_cases hin : lower ≤ code ∧ code < upper
  · cases added <;> simp [hin]
  · cases added <;> simp [hin]

/-- Toggling the ends of a range gives the boundaries of the symmetric difference. -/
theorem toggled_boundaries (hlt : lower < upper) :
    toggled lower upper s.boundaries = (s.symmDiff (range lower upper hlt)).boundaries := by
  apply eq_boundaries_of_countP (pairwise_toggled s.increasing hlt)
  intro code
  rw [countP_toggled s.increasing hlt, ← mem_iff_countP, mem_symmDiff, mem_range]

/-- Adding a code next to the ranges there are gives the boundaries of the larger set. -/
theorem inserted_boundaries (code : Int) :
    inserted code s.boundaries = (s.insert code).boundaries := by
  apply eq_boundaries_of_countP (pairwise_inserted s.increasing code)
  intro other
  rw [countP_inserted s.increasing, ← mem_iff_countP, insert, mem_union, mem_single, or_comm]

theorem exists_foldl_replaced (s : CodeSet) {ranges : List (Int × Int)}
    (hranges : ∀ r ∈ ranges, r.1 < r.2) :
    ∃ t : CodeSet, ranges.foldl (fun bs r => replaced true r.1 r.2 bs) s.boundaries = t.boundaries ∧
      ∀ code, code ∈ t ↔ code ∈ s ∨ ∃ r ∈ ranges, r.1 ≤ code ∧ code < r.2 := by
  induction ranges generalizing s with
  | nil => exact ⟨s, rfl, by simp⟩
  | cons r ranges ih =>
    rcases List.forall_mem_cons.mp hranges with ⟨hlt, hrest⟩
    rcases ih (s.union (range r.1 r.2 hlt)) hrest with ⟨t, ht, hmem⟩
    refine ⟨t, ?_, ?_⟩
    · rw [List.foldl_cons, replaced_boundaries true hlt]
      exact ht
    · intro code
      rw [hmem, mem_union, mem_range, or_assoc]
      simp

/-- Adding range after range gives the boundaries of the union. -/
theorem addedAll_boundaries (s t : CodeSet) :
    addedAll t.boundaries s.boundaries = (s.union t).boundaries := by
  unfold addedAll
  split
  · rename_i hempty
    apply eq_boundaries_of_countP t.increasing
    intro code
    have hnone : code ∉ s := by
      rw [mem_iff_countP, List.isEmpty_iff.mp hempty]
      simp
    rw [← mem_iff_countP, mem_union, or_iff_right hnone]
  · rcases @exists_foldl_replaced s t.ranges fun r hr => lt_of_mem_ranges hr with
      ⟨u, hu, hmem⟩
    change List.foldl _ _ t.ranges = _
    rw [hu]
    apply congrArg boundaries
    apply eq_of_forall_mem_iff
    intro code
    rw [hmem, mem_union, ← mem_iff_exists_range]

/-! ## Sequences of operations -/

open scoped symmDiff

/-- The codes of a set. -/
def members (s : CodeSet) : Set Int := {code | code ∈ s}

@[simp]
theorem mem_members {code : Int} : code ∈ s.members ↔ code ∈ s :=
  Iff.rfl

/-- An operation on a set. -/
inductive Edit where
  | addRange (lower upper : Int)
  | removeRange (lower upper : Int)
  | toggleRange (lower upper : Int)
  | insert (code : Int)
  | toggleChars
  | union (other : CodeSet)
  | inter (other : CodeSet)
  | diff (other : CodeSet)

namespace Edit

/-- What an operation returns. -/
def apply (s : CodeSet) : Edit → Except RangeError CodeSet
  | addRange lower upper => s.addRange lower upper
  | removeRange lower upper => s.removeRange lower upper
  | toggleRange lower upper => s.toggleRange lower upper
  | insert code => .ok (s.insert code)
  | toggleChars => .ok s.toggleChars
  | union other => .ok (s.union other)
  | inter other => .ok (s.inter other)
  | diff other => .ok (s.diff other)

/-- The set after an operation.  One that fails leaves it as it was. -/
def run (s : CodeSet) (e : Edit) : CodeSet :=
  match e.apply s with
  | .ok t => t
  | .error _ => s

/-- What is wrong with a range: it holds no code. -/
def rangeFault? (lower upper : Int) : Option RangeError :=
  if lower < upper then none else some ⟨lower, upper⟩

/-- Why an operation fails. -/
def fault? : Edit → Option RangeError
  | addRange lower upper => rangeFault? lower upper
  | removeRange lower upper => rangeFault? lower upper
  | toggleRange lower upper => rangeFault? lower upper
  | _ => none

/-- What an operation makes of the codes of a set. -/
def onMembers (codes : Set Int) : Edit → Set Int
  | addRange lower upper => codes ∪ Set.Ico lower upper
  | removeRange lower upper => codes \ Set.Ico lower upper
  | toggleRange lower upper => codes ∆ Set.Ico lower upper
  | insert code => codes ∪ {code}
  | toggleChars => codes ∆ Set.Ico 0 Code.charLimit
  | union other => codes ∪ other.members
  | inter other => codes ∩ other.members
  | diff other => codes \ other.members

/-- What an operation makes of boundaries, at the place of the change or along both lists. -/
def onBoundaries (bs : List Int) : Edit → List Int
  | addRange lower upper => replaced true lower upper bs
  | removeRange lower upper => replaced false lower upper bs
  | toggleRange lower upper => toggled lower upper bs
  | insert code => inserted code bs
  | toggleChars => toggled 0 Code.charLimit bs
  | union other => addedAll other.boundaries bs
  | inter other => sweep (· && ·) false false bs other.boundaries
  | diff other => sweep (fun p q => p && !q) false false bs other.boundaries

/-- The boundaries that an operation brings along. -/
def ends : Edit → List Int
  | addRange lower upper => [lower, upper]
  | removeRange lower upper => [lower, upper]
  | toggleRange lower upper => [lower, upper]
  | insert code => [code, code + 1]
  | toggleChars => [0, Code.charLimit]
  | union other => other.boundaries
  | inter other => other.boundaries
  | diff other => other.boundaries

/-- One set is made of another by an operation. -/
structure Makes (e : Edit) (s t : CodeSet) : Prop where
  members_eq : t.members = onMembers s.members e
  boundaries_eq : t.boundaries = onBoundaries s.boundaries e
  mem_or_mem : ∀ b ∈ t.boundaries, b ∈ s.boundaries ∨ b ∈ e.ends

end Edit

variable {e : Edit} {t : CodeSet} {op : Bool → Bool → Bool} {hop : op false false = false}

theorem members_range (hlt : lower < upper) :
    (range lower upper hlt).members = Set.Ico lower upper := by
  ext code
  exact mem_range

theorem members_union : (s.union t).members = s.members ∪ t.members := by
  ext code
  exact mem_union

theorem members_inter : (s.inter t).members = s.members ∩ t.members := by
  ext code
  exact mem_inter

theorem members_diff : (s.diff t).members = s.members \ t.members := by
  ext code
  exact mem_diff

theorem members_symmDiff : (s.symmDiff t).members = s.members ∆ t.members := by
  ext code
  rw [Set.mem_symmDiff, mem_members, mem_members, mem_members, mem_symmDiff]
  by_cases hs : code ∈ s <;> by_cases ht : code ∈ t <;> simp [hs, ht]

/-- A combined set has the boundaries of its parts only. -/
theorem mem_or_mem_of_mem_combine {b : Int} (hb : b ∈ (combine op hop s t).boundaries) :
    b ∈ s.boundaries ∨ b ∈ t.boundaries :=
  mem_or_mem_of_mem_sweep hb

namespace Edit

theorem makes_addRange (s : CodeSet) (hlt : lower < upper) :
    (addRange lower upper).Makes s (s.union (range lower upper hlt)) where
  members_eq := by rw [members_union, members_range, onMembers]
  boundaries_eq := (replaced_boundaries true hlt).symm
  mem_or_mem _ hb := mem_or_mem_of_mem_combine hb

theorem makes_removeRange (s : CodeSet) (hlt : lower < upper) :
    (removeRange lower upper).Makes s (s.diff (range lower upper hlt)) where
  members_eq := by rw [members_diff, members_range, onMembers]
  boundaries_eq := (replaced_boundaries false hlt).symm
  mem_or_mem _ hb := mem_or_mem_of_mem_combine hb

theorem makes_toggleRange (s : CodeSet) (hlt : lower < upper) :
    (toggleRange lower upper).Makes s (s.symmDiff (range lower upper hlt)) where
  members_eq := by rw [members_symmDiff, members_range, onMembers]
  boundaries_eq := (toggled_boundaries hlt).symm
  mem_or_mem _ hb := mem_or_mem_of_mem_combine hb

theorem makes_insert (s : CodeSet) (code : Int) : (insert code).Makes s (s.insert code) where
  members_eq := by
    ext other
    simp only [CodeSet.insert, members_union, onMembers, Set.mem_union, mem_members, mem_single,
      Set.mem_singleton_iff]
  boundaries_eq := (inserted_boundaries code).symm
  mem_or_mem b hb := by
    have hunion : b ∈ (s.union (single code)).boundaries := hb
    exact mem_or_mem_of_mem_combine hunion

/-- An operation with a range fails if the range holds no code. -/
theorem map_range?_spec {f : CodeSet → CodeSet}
    (hmakes : ∀ hlt : lower < upper, e.Makes s (f (range lower upper hlt))) :
    match rangeFault? lower upper with
    | some fault => (range? lower upper).map f = .error fault
    | none => ∃ t, (range? lower upper).map f = .ok t ∧ e.Makes s t := by
  unfold rangeFault? range?
  by_cases hlt : lower < upper
  · rw [if_pos hlt, dif_pos hlt]
    exact ⟨_, rfl, hmakes hlt⟩
  · rw [if_neg hlt, dif_neg hlt]
    rfl

/-- An operation fails if it has a range without codes, and otherwise makes the set that set
algebra asks for. -/
theorem apply_spec (s : CodeSet) (e : Edit) :
    match e.fault? with
    | some fault => e.apply s = .error fault
    | none => ∃ t, e.apply s = .ok t ∧ e.Makes s t := by
  cases e with
  | addRange lower upper => exact map_range?_spec (makes_addRange s)
  | removeRange lower upper => exact map_range?_spec (makes_removeRange s)
  | toggleRange lower upper => exact map_range?_spec (makes_toggleRange s)
  | insert code => exact ⟨_, rfl, makes_insert s code⟩
  | toggleChars =>
    have hchars : (0 : Int) < Code.charLimit := by decide
    have hmakes := makes_toggleRange s hchars
    exact ⟨_, rfl, hmakes.members_eq, hmakes.boundaries_eq, hmakes.mem_or_mem⟩
  | union other =>
    exact ⟨_, rfl, members_union, (addedAll_boundaries s other).symm,
      fun _ hb => mem_or_mem_of_mem_combine hb⟩
  | inter other =>
    exact ⟨_, rfl, members_inter, rfl, fun _ hb => mem_or_mem_of_mem_combine hb⟩
  | diff other =>
    exact ⟨_, rfl, members_diff, rfl, fun _ hb => mem_or_mem_of_mem_combine hb⟩

theorem Ico_eq_empty_of_rangeFault? {fault : RangeError}
    (hfault : rangeFault? lower upper = some fault) : Set.Ico lower upper = ∅ := by
  unfold rangeFault? at hfault
  split at hfault
  · cases hfault
  · rename_i hnot
    exact Set.Ico_eq_empty hnot

/-- A range without codes adds, removes and exchanges nothing. -/
theorem onMembers_of_fault? {fault : RangeError} (hfault : e.fault? = some fault)
    (codes : Set Int) : onMembers codes e = codes := by
  cases e with
  | addRange lower upper => rw [onMembers, Ico_eq_empty_of_rangeFault? hfault, Set.union_empty]
  | removeRange lower upper => rw [onMembers, Ico_eq_empty_of_rangeFault? hfault, Set.sdiff_empty]
  | toggleRange lower upper =>
    rw [onMembers, Ico_eq_empty_of_rangeFault? hfault, ← Set.bot_eq_empty, symmDiff_bot]
  | insert code => cases hfault
  | toggleChars => cases hfault
  | union other => cases hfault
  | inter other => cases hfault
  | diff other => cases hfault

/-- What one operation leaves, whether it fails or not. -/
theorem members_run (s : CodeSet) (e : Edit) :
    (e.run s).members = onMembers s.members e ∧
      ∀ b ∈ (e.run s).boundaries, b ∈ s.boundaries ∨ b ∈ e.ends := by
  have hspec := apply_spec s e
  unfold run
  cases hfault : e.fault? with
  | some fault =>
    rw [hfault] at hspec
    rw [hspec, onMembers_of_fault? hfault]
    exact ⟨rfl, fun b hb => Or.inl hb⟩
  | none =>
    rw [hfault] at hspec
    rcases hspec with ⟨t, ht, hmakes⟩
    rw [ht]
    exact ⟨hmakes.members_eq, hmakes.mem_or_mem⟩

/-- What a sequence of operations leaves are the codes that set algebra leaves, with boundaries
that the operations brought along. -/
theorem members_foldl_run (s : CodeSet) (edits : List Edit) :
    (edits.foldl run s).members = edits.foldl onMembers s.members ∧
      ∀ b ∈ (edits.foldl run s).boundaries, b ∈ s.boundaries ∨ ∃ e ∈ edits, b ∈ e.ends := by
  induction edits generalizing s with
  | nil => exact ⟨rfl, fun b hb => Or.inl hb⟩
  | cons e edits ih =>
    rcases members_run s e with ⟨hmembers, hends⟩
    rcases ih (e.run s) with ⟨hrest, hlater⟩
    constructor
    · rw [List.foldl_cons, List.foldl_cons, hrest, hmembers]
    · intro b hb
      rcases hlater b hb with hb | ⟨f, hf, hb⟩
      · rcases hends b hb with hb | hb
        · exact Or.inl hb
        · exact Or.inr ⟨e, List.mem_cons_self, hb⟩
      · exact Or.inr ⟨f, List.mem_cons_of_mem e hf, hb⟩

end Edit

/-- After any sequence of operations on a set the boundaries are increasing and even in number,
a code is inside where an odd number of them is not behind it, and those are the codes that set
algebra gives.  Another operation then either has a range without codes, which is its error and
leaves the set as it is, or makes the set that set algebra gives, with boundaries found at the
place of the change.  No boundary is new but those that the operations bring along. -/
theorem members_run_edits (s : CodeSet) (edits : List Edit) :
    let after := edits.foldl Edit.run s
    (isIncreasing after.boundaries = true ∧ after.boundaries.length % 2 = 0 ∧
      (∀ code, after.contains code = decide (after.boundaries.countP (· ≤ code) % 2 = 1)) ∧
        after.members = edits.foldl Edit.onMembers s.members ∧
          ∀ b ∈ after.boundaries, b ∈ s.boundaries ∨ ∃ e ∈ edits, b ∈ e.ends) ∧
    ∀ e : Edit,
      match e.fault? with
      | some fault => e.apply after = .error fault ∧ e.run after = after
      | none => ∃ t, e.apply after = .ok t ∧ e.run after = t ∧ e.Makes after t := by
  intro after
  rcases Edit.members_foldl_run s edits with ⟨hmembers, hends⟩
  constructor
  · refine ⟨isIncreasing_of_pairwise after.increasing, after.paired, ?_, hmembers, hends⟩
    intro code
    rw [contains, insideAt_eq_countP after.increasing, Bool.false_xor]
  · intro e
    have hspec := Edit.apply_spec after e
    cases hfault : e.fault? with
    | some fault =>
      rw [hfault] at hspec
      refine ⟨hspec, ?_⟩
      rw [Edit.run, hspec]
    | none =>
      rw [hfault] at hspec
      rcases hspec with ⟨t, ht, hmakes⟩
      refine ⟨t, ht, ?_, hmakes⟩
      rw [Edit.run, ht]

end CodeSet
end Munch

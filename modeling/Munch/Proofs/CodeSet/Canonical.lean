import Munch.CodeSet.Basic

/-!
# Sets of codes by their members

The increasing boundaries of a set are determined by its members, so equality of
labels, which is what subset construction groups edges by, is equality of sets.

Main results:

- Theorem {lit}`CodeSet.eq_of_forall_mem_iff`: sets with the same members are equal.
- Theorem {lit}`CodeSet.exists_mem_of_isEmpty_eq_false`: a set that is not empty
  has a member.
- Theorems {lit}`CodeSet.mem_of_first?` and {lit}`CodeSet.le_of_first?`: the first
  code is the least member.
- Theorem {lit}`CodeSet.mem_iff_exists_range`: the members are the codes of the
  ranges.
- Theorems {lit}`CodeSet.mem_of_mem_pairUp` and {lit}`CodeSet.exists_mem_pairUp`: the ends
  of the ranges are the boundaries.
-/

namespace Munch

/-! ## Boundaries -/

/-- Right after a boundary the membership is the other one. -/
theorem insideAt_cons_self {inside : Bool} {b : Int} {bs : List Int}
    (hbs : (b :: bs).Pairwise (· < ·)) : insideAt inside (b :: bs) b = !inside := by
  rw [insideAt, if_neg (Int.lt_irrefl b)]
  exact insideAt_of_lt (List.pairwise_cons.mp hbs).1

/-- From the first boundary on, the others decide. -/
theorem insideAt_cons_of_le {inside : Bool} {b code : Int} {bs : List Int} (hle : b ≤ code) :
    insideAt inside (b :: bs) code = insideAt (!inside) bs code := by
  rw [insideAt, if_neg (Int.not_lt.mpr hle)]

/-- Where two lists have the same memberships at a boundary, the other does not begin later. -/
theorem not_lt_of_insideAt_eq {inside : Bool} {a b : Int} {as bs : List Int}
    (has : (a :: as).Pairwise (· < ·))
    (h : insideAt inside (a :: as) a = insideAt inside (b :: bs) a) : ¬a < b := by
  intro hab
  rw [insideAt_cons_self has, insideAt, if_pos hab] at h
  exact (Bool.not_eq_self inside).mp h

/-- Increasing boundaries are determined by the memberships at them. -/
theorem eq_of_forall_insideAt_eq {inside : Bool} {as bs : List Int}
    (has : as.Pairwise (· < ·)) (hbs : bs.Pairwise (· < ·))
    (h : ∀ code ∈ as ++ bs, insideAt inside as code = insideAt inside bs code) : as = bs := by
  induction as generalizing inside bs with
  | nil =>
    cases bs with
    | nil => rfl
    | cons b bs =>
      have hb := h b List.mem_cons_self
      rw [insideAt_cons_self hbs] at hb
      exact ((Bool.not_eq_self inside).mp hb.symm).elim
  | cons a as ih =>
    cases bs with
    | nil =>
      have ha := h a List.mem_cons_self
      rw [insideAt_cons_self has] at ha
      exact ((Bool.not_eq_self inside).mp ha).elim
    | cons b bs =>
      have hab : ¬a < b := not_lt_of_insideAt_eq has (h a List.mem_cons_self)
      have hba : ¬b < a :=
        not_lt_of_insideAt_eq hbs (h b (List.mem_append_right _ List.mem_cons_self)).symm
      obtain rfl : a = b := by omega
      obtain ⟨hfirst, hrest⟩ := List.pairwise_cons.mp has
      obtain ⟨hfirst', hrest'⟩ := List.pairwise_cons.mp hbs
      -- All other boundaries are behind the first one.
      have htail : ∀ code ∈ as ++ bs, insideAt (!inside) as code = insideAt (!inside) bs code := by
        intro code hcode
        have hle : a ≤ code :=
          (List.mem_append.mp hcode).elim (fun hmem => Int.le_of_lt (hfirst code hmem))
            fun hmem => Int.le_of_lt (hfirst' code hmem)
        have hall : code ∈ (a :: as) ++ (a :: bs) := by
          rcases List.mem_append.mp hcode with hmem | hmem <;> simp [hmem]
        have hsame := h code hall
        rwa [insideAt_cons_of_le hle, insideAt_cons_of_le hle] at hsame
      rw [ih hrest hrest' htail]

namespace CodeSet

/-! ## Members -/

/-- Membership is what the program tests. -/
theorem mem_iff {code : Int} {s : CodeSet} : code ∈ s ↔ s.contains code = true :=
  Iff.rfl

/-- The same for a code that is not a member. -/
theorem not_mem_iff {code : Int} {s : CodeSet} : code ∉ s ↔ s.contains code = false :=
  Bool.not_eq_true _ ▸ Iff.rfl

@[simp]
theorem mem_union {code : Int} {s t : CodeSet} : code ∈ s.union t ↔ code ∈ s ∨ code ∈ t := by
  simp only [mem_iff, contains_union, Bool.or_eq_true]

@[simp]
theorem mem_inter {code : Int} {s t : CodeSet} : code ∈ s.inter t ↔ code ∈ s ∧ code ∈ t := by
  simp only [mem_iff, contains_inter, Bool.and_eq_true]

@[simp]
theorem mem_diff {code : Int} {s t : CodeSet} : code ∈ s.diff t ↔ code ∈ s ∧ code ∉ t := by
  simp only [mem_iff, contains_diff, Bool.and_eq_true, Bool.not_eq_true', Bool.not_eq_true]

@[simp]
theorem not_mem_empty (code : Int) : code ∉ empty := by
  simp [mem_iff]

@[simp]
theorem mem_range {lower upper : Int} {h : lower < upper} {code : Int} :
    code ∈ range lower upper h ↔ lower ≤ code ∧ code < upper := by
  simp only [mem_iff, contains_range, decide_eq_true_eq]

@[simp]
theorem mem_single {c code : Int} : code ∈ single c ↔ code = c := by
  simp only [mem_iff, contains_single, decide_eq_true_eq]

@[simp]
theorem mem_silent {code : Int} : code ∈ silent ↔ code = Code.silent :=
  mem_single

@[simp]
theorem mem_chars {code : Int} : code ∈ chars ↔ 0 ≤ code ∧ code < Code.charLimit :=
  mem_range

@[simp]
theorem mem_all {code : Int} : code ∈ all ↔ Code.least ≤ code ∧ code < Code.charLimit :=
  mem_range

/-- The boundaries are all there is to a set. -/
theorem eq_of_boundaries_eq {s t : CodeSet} (h : s.boundaries = t.boundaries) : s = t := by
  obtain ⟨as, has, hpair⟩ := s
  obtain ⟨bs, hbs, hpair'⟩ := t
  obtain rfl : as = bs := h
  rfl

/-- Sets with the same members among their boundaries are equal. -/
theorem eq_of_forall_boundary {s t : CodeSet}
    (h : ∀ code ∈ s.boundaries ++ t.boundaries, s.contains code = t.contains code) : s = t :=
  eq_of_boundaries_eq (eq_of_forall_insideAt_eq s.increasing t.increasing h)

/-- Sets with the same members are equal. -/
theorem eq_of_forall_mem_iff {s t : CodeSet} (h : ∀ code, code ∈ s ↔ code ∈ t) : s = t :=
  eq_of_forall_boundary fun code _ => Bool.eq_iff_iff.mpr (h code)

/-- Sets are in a total order. -/
instance : Std.TransOrd CodeSet where
  eq_swap := Std.OrientedOrd.eq_swap (α := List Int)
  isLE_trans := Std.TransOrd.isLE_trans (α := List Int)

instance : Std.LawfulEqOrd CodeSet where
  compare_self := Std.ReflOrd.compare_self (α := List Int)
  eq_of_compare h := eq_of_boundaries_eq (Std.LawfulEqOrd.eq_of_compare (α := List Int) h)

/-! ## The first code -/

/-- The first code is a member. -/
theorem mem_of_first? {s : CodeSet} {code : Int} (h : s.first? = some code) : code ∈ s := by
  obtain ⟨bs, hbs, hpair⟩ := s
  cases bs with
  | nil => cases h
  | cons b bs =>
    obtain rfl : b = code := Option.some.inj h
    exact insideAt_cons_self hbs

/-- No member is less than the first code. -/
theorem le_of_first? {s : CodeSet} {first code : Int} (h : s.first? = some first)
    (hcode : code ∈ s) : first ≤ code := by
  obtain ⟨bs, hbs, hpair⟩ := s
  cases bs with
  | nil => cases h
  | cons b bs =>
    obtain rfl : b = first := Option.some.inj h
    refine Int.not_lt.mp fun hlt => ?_
    have hfalse : insideAt false (b :: bs) code = false := by rw [insideAt, if_pos hlt]
    exact Bool.false_ne_true (hfalse.symm.trans hcode)

/-- A set that is not empty has a first code. -/
theorem exists_first?_of_isEmpty_eq_false {s : CodeSet} (h : s.isEmpty = false) :
    ∃ code, s.first? = some code := by
  obtain ⟨bs, hbs, hpair⟩ := s
  cases bs with
  | nil => cases h
  | cons b bs => exact ⟨b, rfl⟩

/-- A set that is not empty has a member. -/
theorem exists_mem_of_isEmpty_eq_false {s : CodeSet} (h : s.isEmpty = false) :
    ∃ code, code ∈ s := by
  obtain ⟨code, hcode⟩ := exists_first?_of_isEmpty_eq_false h
  exact ⟨code, mem_of_first? hcode⟩

/-- A set with a member has a first code, which is no greater. -/
theorem exists_first?_of_mem {s : CodeSet} {code : Int} (h : code ∈ s) :
    ∃ first, s.first? = some first ∧ first ≤ code := by
  obtain ⟨bs, hbs, hpair⟩ := s
  cases bs with
  | nil => exact absurd h (by simp [mem_iff, contains, insideAt])
  | cons b bs => exact ⟨b, rfl, le_of_first? rfl h⟩

/-- A set is not empty iff it has a member. -/
theorem isEmpty_eq_false_iff {s : CodeSet} : s.isEmpty = false ↔ ∃ code, code ∈ s := by
  constructor
  · exact exists_mem_of_isEmpty_eq_false
  · rintro ⟨code, hcode⟩
    obtain ⟨first, hfirst, -⟩ := exists_first?_of_mem hcode
    obtain ⟨bs, hbs, hpair⟩ := s
    cases bs with
    | nil => cases hfirst
    | cons b bs => rfl

/-- A set with only one member is that of one code. -/
theorem eq_single_of_forall_mem {s : CodeSet} {c code : Int} (hcode : code ∈ s)
    (h : ∀ x, x ∈ s → x = c) : s = single c := by
  obtain rfl := h code hcode
  refine eq_of_forall_mem_iff fun x => ⟨fun hx => mem_single.mpr (h x hx), fun hx => ?_⟩
  rwa [mem_single.mp hx]

/-- A code is found to be the only one exactly in the set of that code. -/
theorem single?_eq_some_iff {s : CodeSet} {code : Int} :
    s.single? = some code ↔ s = single code := by
  constructor
  · intro h
    unfold single? at h
    split at h
    · rename_i lower upper hbounds
      split at h
      · rename_i hnext
        cases h
        refine eq_of_boundaries_eq ?_
        rw [hbounds, hnext]
        rfl
      · cases h
    · cases h
  · rintro rfl
    simp [single?, single, range]

/-! ## Ranges -/

/-- The members are the codes of the ranges between boundaries taken in pairs. -/
theorem insideAt_iff_exists_pairUp {bs : List Int} (hbs : bs.Pairwise (· < ·))
    (hpair : bs.length % 2 = 0) (code : Int) :
    insideAt false bs code = true ↔ ∃ r ∈ pairUp bs, r.1 ≤ code ∧ code < r.2 := by
  fun_induction pairUp bs with
  | case1 lower upper rest ih =>
    obtain ⟨hlower, hrest⟩ := List.pairwise_cons.mp hbs
    obtain ⟨hupper, hrest'⟩ := List.pairwise_cons.mp hrest
    have ih' := ih hrest' (by simp only [List.length_cons] at hpair; omega)
    have hlt : lower < upper := hlower upper (by simp)
    simp only [insideAt, List.mem_cons, exists_eq_or_imp, Bool.not_false, Bool.not_true]
    by_cases hlow : code < lower
    · have hleft : insideAt false rest code = false := insideAt_of_lt fun x hx => by
        have := hlower x (by simp [hx])
        omega
      rw [hleft] at ih'
      simp only [hlow, if_true, Bool.false_eq_true, false_iff] at ih' ⊢
      rintro (hin | hin)
      · omega
      · exact ih' hin
    · by_cases hup : code < upper
      · simp [hlow, hup, Int.not_lt.mp hlow]
      · rw [if_neg hlow, if_neg hup, ih']
        exact ⟨Or.inr, fun hor => hor.elim (fun hin => absurd hin.2 hup) id⟩
  | case2 bs hshort =>
    rcases bs with _ | ⟨lower, _ | ⟨upper, rest⟩⟩
    · simp [insideAt]
    · simp at hpair
    · exact absurd rfl (hshort lower upper rest)

/-- The members of a set are the codes of its ranges. -/
theorem mem_iff_exists_range {code : Int} {s : CodeSet} :
    code ∈ s ↔ ∃ r ∈ s.ranges, r.1 ≤ code ∧ code < r.2 :=
  insideAt_iff_exists_pairUp s.increasing s.paired code

/-- The ends of a range are boundaries, the upper one behind the lower one. -/
theorem mem_of_mem_pairUp {bs : List Int} (hbs : bs.Pairwise (· < ·)) {r : Int × Int}
    (hr : r ∈ pairUp bs) : r.1 ∈ bs ∧ r.2 ∈ bs ∧ r.1 < r.2 := by
  fun_induction pairUp bs with
  | case1 lower upper rest ih =>
    obtain ⟨hlower, hrest⟩ := List.pairwise_cons.mp hbs
    rcases List.mem_cons.mp hr with rfl | hr
    · exact ⟨List.mem_cons_self, List.mem_cons_of_mem _ List.mem_cons_self,
        hlower upper List.mem_cons_self⟩
    · obtain ⟨hfirst, hsecond, hlt⟩ := ih (List.pairwise_cons.mp hrest).2 hr
      exact ⟨List.mem_cons_of_mem _ (List.mem_cons_of_mem _ hfirst),
        List.mem_cons_of_mem _ (List.mem_cons_of_mem _ hsecond), hlt⟩
  | case2 => cases hr

/-- The ranges are not empty. -/
theorem lt_of_mem_ranges {s : CodeSet} {r : Int × Int} (hr : r ∈ s.ranges) : r.1 < r.2 :=
  (mem_of_mem_pairUp s.increasing hr).2.2

/-- Every code of a set is below one of its boundaries. -/
theorem exists_boundary_of_mem {s : CodeSet} {code : Int} (hcode : code ∈ s) :
    ∃ b ∈ s.boundaries, code < b := by
  obtain ⟨r, hr, -, hlt⟩ := mem_iff_exists_range.mp hcode
  exact ⟨r.2, (mem_of_mem_pairUp s.increasing hr).2.1, hlt⟩

/-- Ranges are in order, with a gap between them. -/
theorem pairwise_pairUp {bs : List Int} (hbs : bs.Pairwise (· < ·)) :
    (pairUp bs).Pairwise fun r t => r.2 < t.1 := by
  fun_induction pairUp bs with
  | case1 lower upper rest ih =>
    have hrest := (List.pairwise_cons.mp hbs).2
    obtain ⟨hupper, htail⟩ := List.pairwise_cons.mp hrest
    refine List.pairwise_cons.mpr ⟨fun r hr => ?_, ih htail⟩
    exact hupper r.1 (mem_of_mem_pairUp htail hr).1
  | case2 => exact List.Pairwise.nil

/-- Every boundary is an end of a range. -/
theorem exists_mem_pairUp {bs : List Int} (heven : bs.length % 2 = 0) {b : Int} (hb : b ∈ bs) :
    ∃ r ∈ pairUp bs, b = r.1 ∨ b = r.2 := by
  fun_induction pairUp bs with
  | case1 lower upper rest ih =>
    rcases List.mem_cons.mp hb with rfl | hb
    · exact ⟨_, List.mem_cons_self, Or.inl rfl⟩
    · rcases List.mem_cons.mp hb with rfl | hb
      · exact ⟨_, List.mem_cons_self, Or.inr rfl⟩
      · have hrest : rest.length % 2 = 0 := by
          simpa only [List.length_cons, Nat.add_assoc, Nat.add_mod_right] using heven
        obtain ⟨r, hr, hend⟩ := ih hrest hb
        exact ⟨r, List.mem_cons_of_mem _ hr, hend⟩
  | case2 bs hshort =>
    rcases bs with _ | ⟨lower, _ | ⟨upper, rest⟩⟩
    · cases hb
    · cases heven
    · exact absurd rfl (hshort lower upper rest)

/-- A set of codes below a limit has no boundary above it. -/
theorem le_of_mem_boundaries {s : CodeSet} {limit : Int} (hs : ∀ c ∈ s, c < limit) {b : Int}
    (hb : b ∈ s.boundaries) : b ≤ limit := by
  obtain ⟨r, hr, hend⟩ := exists_mem_pairUp s.paired hb
  have hlt := lt_of_mem_ranges hr
  have hlast : r.2 - 1 ∈ s := mem_iff_exists_range.mpr ⟨r, hr, by omega, by omega⟩
  have hbelow := hs _ hlast
  omega

/-- The first two letters. -/
def firstLetters : CodeSet := range 97 99 (by decide)

@[simp]
theorem mem_firstLetters {code : Int} : code ∈ firstLetters ↔ 97 ≤ code ∧ code < 99 :=
  mem_range

end CodeSet
end Munch

import Munch.Code

/-!
# Sets of codes

A set is kept as the increasing list of the codes at which membership changes,
so that a label such as "every character but one" is four numbers long.  Every
binary operation is one sweep over two such lists; which operation it is depends
only on how two memberships combine.

Main results:

- Theorem {lit}`insideAt_sweep`: a sweep combines memberships point by point.
- Theorem {lit}`pairwise_sweep`: the boundaries it finds are increasing.
- Theorem {lit}`CodeSet.contains_combine`: membership in a combined set.
- Theorem {lit}`CodeSet.contains_range`: membership in a range.
-/

namespace Munch

/-! ## Boundary lists -/

/-- Membership of `code` in the set that changes at the given boundaries, when
everything to the left of them has the membership `inside`. -/
def insideAt (inside : Bool) : List Int → Int → Bool
  | [], _ => inside
  | b :: bs, code => if code < b then inside else insideAt (!inside) bs code

/-- Records a boundary only if the membership changes there. -/
def changeAt (before after : Bool) (code : Int) (rest : List Int) : List Int :=
  if before = after then rest else code :: rest

/-- The codes at which the combination of two memberships changes, from left to
right.  `p` and `q` are the memberships to the left of both lists. -/
def sweep (op : Bool → Bool → Bool) (p q : Bool) : List Int → List Int → List Int
  | [], [] => []
  | a :: as, [] => changeAt (op p q) (op (!p) q) a (sweep op (!p) q as [])
  | [], b :: bs => changeAt (op p q) (op p (!q)) b (sweep op p (!q) [] bs)
  | a :: as, b :: bs =>
    if a < b then changeAt (op p q) (op (!p) q) a (sweep op (!p) q as (b :: bs))
    else if b < a then changeAt (op p q) (op p (!q)) b (sweep op p (!q) (a :: as) bs)
    else changeAt (op p q) (op (!p) (!q)) a (sweep op (!p) (!q) as bs)
termination_by as bs => as.length + bs.length

theorem mem_changeAt {before after : Bool} {code x : Int} {rest : List Int}
    (h : x ∈ changeAt before after code rest) : x = code ∨ x ∈ rest := by
  unfold changeAt at h
  split at h
  · exact Or.inr h
  · simpa using h

theorem pairwise_changeAt {before after : Bool} {code : Int} {rest : List Int}
    (hrest : rest.Pairwise (· < ·)) (hcode : ∀ x ∈ rest, code < x) :
    (changeAt before after code rest).Pairwise (· < ·) := by
  unfold changeAt
  split
  · exact hrest
  · exact List.pairwise_cons.mpr ⟨hcode, hrest⟩

/-- A sweep keeps only boundaries of its arguments. -/
theorem mem_or_mem_of_mem_sweep {op : Bool → Bool → Bool} {p q : Bool} {as bs : List Int}
    {x : Int} (h : x ∈ sweep op p q as bs) : x ∈ as ∨ x ∈ bs := by
  fun_induction sweep op p q as bs with
  | case1 => simp at h
  | case2 p q a as ih => have := mem_changeAt h; grind
  | case3 p q b bs ih => have := mem_changeAt h; grind
  | case4 p q a as b bs hab ih => have := mem_changeAt h; grind
  | case5 p q a as b bs hab hba ih => have := mem_changeAt h; grind
  | case6 p q a as b bs hab hba ih => have := mem_changeAt h; grind

/-- A bound below both arguments is below their sweep. -/
theorem lt_of_mem_sweep {op : Bool → Bool → Bool} {p q : Bool} {as bs : List Int} {code : Int}
    (has : ∀ x ∈ as, code < x) (hbs : ∀ x ∈ bs, code < x) :
    ∀ x ∈ sweep op p q as bs, code < x := fun x hx =>
  (mem_or_mem_of_mem_sweep hx).elim (has x) (hbs x)

theorem lt_of_mem_cons {code b : Int} {bs : List Int} (hb : code < b)
    (hbs : (b :: bs).Pairwise (· < ·)) : ∀ x ∈ b :: bs, code < x := by
  intro x hx
  rcases List.mem_cons.mp hx with rfl | hx
  · exact hb
  · have := (List.pairwise_cons.mp hbs).1 x hx
    omega

/-- Sweeping two increasing lists gives an increasing list. -/
theorem pairwise_sweep {op : Bool → Bool → Bool} {p q : Bool} {as bs : List Int}
    (has : as.Pairwise (· < ·)) (hbs : bs.Pairwise (· < ·)) :
    (sweep op p q as bs).Pairwise (· < ·) := by
  fun_induction sweep op p q as bs with
  | case1 => exact List.Pairwise.nil
  | case2 p q a as ih =>
    have has' := List.pairwise_cons.mp has
    exact pairwise_changeAt (ih has'.2 hbs) (lt_of_mem_sweep has'.1 (by simp))
  | case3 p q b bs ih =>
    have hbs' := List.pairwise_cons.mp hbs
    exact pairwise_changeAt (ih has hbs'.2) (lt_of_mem_sweep (by simp) hbs'.1)
  | case4 p q a as b bs hab ih =>
    have has' := List.pairwise_cons.mp has
    exact pairwise_changeAt (ih has'.2 hbs)
      (lt_of_mem_sweep has'.1 (lt_of_mem_cons hab hbs))
  | case5 p q a as b bs hab hba ih =>
    have hbs' := List.pairwise_cons.mp hbs
    exact pairwise_changeAt (ih has hbs'.2)
      (lt_of_mem_sweep (lt_of_mem_cons hba has) hbs'.1)
  | case6 p q a as b bs hab hba ih =>
    have has' := List.pairwise_cons.mp has
    have hbs' := List.pairwise_cons.mp hbs
    obtain rfl : a = b := by omega
    exact pairwise_changeAt (ih has'.2 hbs'.2) (lt_of_mem_sweep has'.1 hbs'.1)

/-- Membership to the right of all boundaries. -/
def insideAfter (inside : Bool) : List Int → Bool
  | [] => inside
  | _ :: bs => insideAfter (!inside) bs

/-- Crossing an even number of boundaries changes nothing. -/
theorem insideAfter_eq (inside : Bool) (bs : List Int) :
    insideAfter inside bs = (inside ^^ decide (bs.length % 2 = 1)) := by
  induction bs generalizing inside with
  | nil => simp [insideAfter]
  | cons b bs ih =>
    rw [insideAfter, ih, List.length_cons]
    rcases Nat.mod_two_eq_zero_or_one bs.length with h | h
    · have h' : (bs.length + 1) % 2 = 1 := by omega
      simp [h, h']
    · have h' : (bs.length + 1) % 2 = 0 := by omega
      simp [h, h']

theorem insideAfter_changeAt (before after : Bool) (code : Int) (rest : List Int) :
    insideAfter before (changeAt before after code rest) = insideAfter after rest := by
  cases before <;> cases after <;> rfl

theorem insideAfter_sweep (op : Bool → Bool → Bool) (p q : Bool) (as bs : List Int) :
    insideAfter (op p q) (sweep op p q as bs) =
      op (insideAfter p as) (insideAfter q bs) := by
  fun_induction sweep op p q as bs with
  | case1 => rfl
  | case2 p q a as ih => rw [insideAfter_changeAt, ih]; rfl
  | case3 p q b bs ih => rw [insideAfter_changeAt, ih]; rfl
  | case4 p q a as b bs hab ih => rw [insideAfter_changeAt, ih]; rfl
  | case5 p q a as b bs hab hba ih => rw [insideAfter_changeAt, ih]; rfl
  | case6 p q a as b bs hab hba ih => rw [insideAfter_changeAt, ih]; rfl

/-- A code left of every boundary has the membership on the left. -/
theorem insideAt_of_lt {inside : Bool} {bs : List Int} {code : Int}
    (h : ∀ b ∈ bs, code < b) : insideAt inside bs code = inside := by
  cases bs with
  | nil => rfl
  | cons b bs => simp [insideAt, h b]

theorem insideAt_changeAt {before after : Bool} {a code : Int} {rest : List Int}
    (hrest : ∀ x ∈ rest, a < x) :
    insideAt before (changeAt before after a rest) code =
      if code < a then before else insideAt after rest code := by
  unfold changeAt
  by_cases hsame : before = after
  · subst hsame
    simp only [if_true]
    split
    · exact insideAt_of_lt fun b hb => by have := hrest b hb; omega
    · rfl
  · have hafter : after = !before := by cases before <;> cases after <;> simp_all
    simp [hafter, insideAt]

/-- A sweep combines memberships point by point. -/
theorem insideAt_sweep {op : Bool → Bool → Bool} {p q : Bool} {as bs : List Int}
    (has : as.Pairwise (· < ·)) (hbs : bs.Pairwise (· < ·)) (code : Int) :
    insideAt (op p q) (sweep op p q as bs) code =
      op (insideAt p as code) (insideAt q bs code) := by
  fun_induction sweep op p q as bs with
  | case1 => rfl
  | case2 p q a as ih =>
    have has' := List.pairwise_cons.mp has
    rw [insideAt_changeAt (lt_of_mem_sweep has'.1 (by simp)), ih has'.2 hbs]
    by_cases h : code < a <;> simp [insideAt, h]
  | case3 p q b bs ih =>
    have hbs' := List.pairwise_cons.mp hbs
    rw [insideAt_changeAt (lt_of_mem_sweep (by simp) hbs'.1), ih has hbs'.2]
    by_cases h : code < b <;> simp [insideAt, h]
  | case4 p q a as b bs hab ih =>
    have has' := List.pairwise_cons.mp has
    rw [insideAt_changeAt (lt_of_mem_sweep has'.1 (lt_of_mem_cons hab hbs)), ih has'.2 hbs]
    by_cases h : code < a
    · have hb : code < b := by omega
      simp [insideAt, h, hb]
    · simp [insideAt, h]
  | case5 p q a as b bs hab hba ih =>
    have hbs' := List.pairwise_cons.mp hbs
    rw [insideAt_changeAt (lt_of_mem_sweep (lt_of_mem_cons hba has) hbs'.1), ih has hbs'.2]
    by_cases h : code < b
    · have ha : code < a := by omega
      simp [insideAt, h, ha]
    · simp [insideAt, h]
  | case6 p q a as b bs hab hba ih =>
    have has' := List.pairwise_cons.mp has
    have hbs' := List.pairwise_cons.mp hbs
    obtain rfl : a = b := by omega
    rw [insideAt_changeAt (lt_of_mem_sweep has'.1 hbs'.1), ih has'.2 hbs'.2]
    by_cases h : code < a <;> simp [insideAt, h]

/-! ## The type -/

/-- A set of codes, as the codes at which membership changes. -/
structure CodeSet where
  boundaries : List Int
  increasing : boundaries.Pairwise (· < ·)
  paired : boundaries.length % 2 = 0
deriving DecidableEq

/-- The range from `lower` up to, but not including, `upper` holds no code. -/
structure RangeError where
  lower : Int
  upper : Int
deriving DecidableEq, Repr

/-- The wording of a range error. -/
def RangeError.message (e : RangeError) : String :=
  s!"Illegal range [{e.lower}, {e.upper})"

namespace CodeSet

instance : Hashable CodeSet where
  hash s := hash s.boundaries

/-- The set without codes. -/
def empty : CodeSet := ⟨[], List.Pairwise.nil, rfl⟩

instance : Inhabited CodeSet := ⟨empty⟩

instance : EmptyCollection CodeSet := ⟨empty⟩

/-- The codes from `lower` up to, but not including, `upper`. -/
def range (lower upper : Int) (h : lower < upper) : CodeSet :=
  ⟨[lower, upper], by simp [h], by simp⟩

/-- A range whose ends come from outside. -/
def range? (lower upper : Int) : Except RangeError CodeSet :=
  if h : lower < upper then .ok (range lower upper h) else .error ⟨lower, upper⟩

/-- The set of one code. -/
def single (code : Int) : CodeSet := range code (code + 1) (by omega)

/-- The label of an edge that is taken without consuming input. -/
def silent : CodeSet := single Code.silent

/-- Every character. -/
def chars : CodeSet := range 0 Code.charLimit (by decide)

/-- Every code: characters, the silent code and the markers. -/
def all : CodeSet := range Code.least Code.charLimit (by decide)

/-- Whether each number is smaller than the next. -/
def isIncreasing : List Int → Bool
  | a :: b :: rest => decide (a < b) && isIncreasing (b :: rest)
  | _ => true

theorem pairwise_of_isIncreasing {bs : List Int} (h : isIncreasing bs = true) :
    bs.Pairwise (· < ·) := by
  induction bs with
  | nil => exact List.Pairwise.nil
  | cons a rest ih =>
    cases rest with
    | nil => simp
    | cons b rest =>
      simp only [isIncreasing, Bool.and_eq_true, decide_eq_true_eq] at h
      have hrest := ih h.2
      refine List.pairwise_cons.mpr ⟨fun x hx => ?_, hrest⟩
      rcases List.mem_cons.mp hx with rfl | hx
      · exact h.1
      · have := (List.pairwise_cons.mp hrest).1 x hx
        omega

/-- A list of numbers is a set if they are increasing and even in number. -/
def ofBoundaries? (bs : List Int) : Option CodeSet :=
  if h : isIncreasing bs = true ∧ bs.length % 2 = 0 then
    some ⟨bs, pairwise_of_isIncreasing h.1, h.2⟩
  else none

/-! ## Operations -/

/-- The codes whose memberships in two sets combine to true. -/
def combine (op : Bool → Bool → Bool) (hop : op false false = false) (s t : CodeSet) :
    CodeSet where
  boundaries := sweep op false false s.boundaries t.boundaries
  increasing := pairwise_sweep s.increasing t.increasing
  paired := by
    have h := insideAfter_sweep op false false s.boundaries t.boundaries
    simp only [insideAfter_eq, s.paired, t.paired, Bool.false_bne, Nat.zero_ne_one,
      decide_false, hop, decide_eq_false_iff_not] at h
    omega

/-- The codes in either set. -/
def union : CodeSet → CodeSet → CodeSet := combine (· || ·) rfl

/-- The codes in both sets. -/
def inter : CodeSet → CodeSet → CodeSet := combine (· && ·) rfl

/-- The codes of the first set that are not in the second. -/
def diff : CodeSet → CodeSet → CodeSet := combine (fun p q => p && !q) rfl

/-- The codes in exactly one of two sets. -/
def symmDiff : CodeSet → CodeSet → CodeSet := combine (· ^^ ·) rfl

instance : Union CodeSet := ⟨union⟩
instance : Inter CodeSet := ⟨inter⟩
instance : SDiff CodeSet := ⟨diff⟩

/-- Adds the codes of a range. -/
def addRange (s : CodeSet) (lower upper : Int) : Except RangeError CodeSet :=
  (range? lower upper).map s.union

/-- Removes the codes of a range. -/
def removeRange (s : CodeSet) (lower upper : Int) : Except RangeError CodeSet :=
  (range? lower upper).map s.diff

/-- Exchanges members and non-members within a range. -/
def toggleRange (s : CodeSet) (lower upper : Int) : Except RangeError CodeSet :=
  (range? lower upper).map s.symmDiff

/-- Adds one code. -/
def insert (s : CodeSet) (code : Int) : CodeSet := s.union (single code)

/-- Exchanges members and non-members among the characters. -/
def toggleChars (s : CodeSet) : CodeSet := s.symmDiff chars

/-! ## Queries -/

/-- Whether a code is in the set. -/
def contains (s : CodeSet) (code : Int) : Bool := insideAt false s.boundaries code

instance : Membership Int CodeSet := ⟨fun s code => s.contains code = true⟩

instance (code : Int) (s : CodeSet) : Decidable (code ∈ s) :=
  inferInstanceAs (Decidable (s.contains code = true))

/-- Whether the set has no codes. -/
def isEmpty (s : CodeSet) : Bool := s.boundaries.isEmpty

/-- The least code of the set. -/
def first? (s : CodeSet) : Option Int := s.boundaries.head?

/-- Consecutive boundaries taken in pairs. -/
def pairUp : List Int → List (Int × Int)
  | lower :: upper :: rest => (lower, upper) :: pairUp rest
  | _ => []

/-- The maximal ranges of the set, as lower ends and upper ends past the last
code, in increasing order. -/
def ranges (s : CodeSet) : List (Int × Int) := pairUp s.boundaries

/-- The number of codes in the set. -/
def cardinality (s : CodeSet) : Int := s.ranges.foldr (fun r n => r.2 - r.1 + n) 0

/-- The only code of a set of one code. -/
def single? (s : CodeSet) : Option Int :=
  match s.boundaries with
  | [lower, upper] => if upper = lower + 1 then some lower else none
  | _ => none

/-- Every code of the set in increasing order. -/
def toList (s : CodeSet) : List Int :=
  s.ranges.flatMap fun r =>
    (List.range (r.2 - r.1).toNat).map fun (k : Nat) => r.1 + (k : Int)

/-- Sets are ordered like words over their boundaries. -/
instance : Ord CodeSet where
  compare s t := compare s.boundaries t.boundaries

/-- Membership in a combined set is the combination of the memberships. -/
theorem contains_combine (op : Bool → Bool → Bool) (hop : op false false = false)
    (s t : CodeSet) (code : Int) :
    (combine op hop s t).contains code = op (s.contains code) (t.contains code) := by
  have h := @insideAt_sweep op false false _ _ s.increasing t.increasing code
  rw [hop] at h
  exact h

@[simp]
theorem contains_union (s t : CodeSet) (code : Int) :
    (s.union t).contains code = (s.contains code || t.contains code) :=
  contains_combine _ rfl s t code

@[simp]
theorem contains_inter (s t : CodeSet) (code : Int) :
    (s.inter t).contains code = (s.contains code && t.contains code) :=
  contains_combine _ rfl s t code

@[simp]
theorem contains_diff (s t : CodeSet) (code : Int) :
    (s.diff t).contains code = (s.contains code && !t.contains code) :=
  contains_combine _ rfl s t code

@[simp]
theorem contains_symmDiff (s t : CodeSet) (code : Int) :
    (s.symmDiff t).contains code = (s.contains code ^^ t.contains code) :=
  contains_combine _ rfl s t code

@[simp]
theorem contains_empty (code : Int) : empty.contains code = false :=
  rfl

/-- A range holds exactly the codes between its ends. -/
@[simp]
theorem contains_range (lower upper : Int) (h : lower < upper) (code : Int) :
    (range lower upper h).contains code = decide (lower ≤ code ∧ code < upper) := by
  simp only [contains, range, insideAt]
  by_cases hlow : code < lower
  · rw [if_pos hlow]
    exact (decide_eq_false (by omega)).symm
  · rw [if_neg hlow]
    by_cases hup : code < upper
    · rw [if_pos hup]
      exact (decide_eq_true (by omega)).symm
    · rw [if_neg hup]
      exact (decide_eq_false (by omega)).symm

@[simp]
theorem contains_single (c code : Int) : (single c).contains code = decide (code = c) := by
  rw [single, contains_range]
  exact decide_eq_decide.mpr (by omega)

end CodeSet
end Munch

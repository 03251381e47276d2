import Munch.Proofs.Alphabet

/-!
# The coarsest cut of the alphabet

Refining cuts no more than the sets ask for: codes that no set tells apart stay in one block.
The blocks are therefore the classes of the relation to be told apart by no set, whatever the
order in which the sets were taken.

The pieces of any set of codes are the parts of it in the blocks.  Blocks have no codes in
common, so that the first codes of the pieces are all different and increase along the list.

Main results:

- Theorem {lit}`Alphabet.IsCoarsest.foldl`: refining keeps the coarsest cut.
- Theorem {lit}`Alphabet.IsCoarsest.mem_iff`: its blocks are the classes.
- Theorem {lit}`Alphabet.IsCoarsest.arePieces`: pieces come in the order of their first codes
  and have all codes of their set.
- Theorem {lit}`Alphabet.pieces_eq_of_perm`: the order of the blocks does not matter.
-/

namespace Munch
namespace Alphabet

variable {blocks blocks' sets done : List CodeSet} {s t block part : CodeSet} {c d : Int}

/-- Codes that no set of a list tells apart. -/
def Agree (sets : List CodeSet) (c d : Int) : Prop := ∀ s ∈ sets, c ∈ s ↔ d ∈ s

/-- A set of all codes that no set of a list tells apart from one of them. -/
def IsClass (sets : List CodeSet) (block : CodeSet) : Prop :=
  ∃ c ∈ CodeSet.all, ∀ d, d ∈ block ↔ d ∈ CodeSet.all ∧ Agree sets c d

/-- Sets without a code in common. -/
def Apart (s t : CodeSet) : Prop := ∀ c, ¬(c ∈ s ∧ c ∈ t)

/-- The first code of a set is less than that of another. -/
def Before (s t : CodeSet) : Prop := ∃ c d, s.first? = some c ∧ t.first? = some d ∧ c < d

/-- A set is empty iff it has no member. -/
theorem isEmpty_iff_forall_not_mem : s.isEmpty = true ↔ ∀ c, c ∉ s := by
  rw [← Bool.not_eq_false, CodeSet.isEmpty_eq_false_iff, not_exists]

/-- Being apart does not depend on the order. -/
theorem Apart.symm (h : Apart s t) : Apart t s := fun c hc => h c hc.symm

/-- A cut in which codes that no set tells apart are in one block. -/
structure IsCoarsest (sets blocks : List CodeSet) : Prop extends IsCut sets blocks where
  coarse : ∀ block ∈ blocks, ∀ c ∈ block, ∀ d ∈ CodeSet.all, Agree sets c d → d ∈ block
  apart : blocks.Pairwise Apart

/-! ## Refining -/

/-- The two sides of a cut are apart. -/
theorem pairwise_cut (s block : CodeSet) : (cut s block).Pairwise Apart := by
  have hpair : [block.diff s, block.inter s].Pairwise Apart :=
    List.pairwise_pair.mpr fun c hc => (CodeSet.mem_diff.mp hc.1).2 (CodeSet.mem_inter.mp hc.2).2
  exact hpair.filter _

/-- A part of a block has codes of that block only. -/
theorem mem_of_mem_cut (hpart : part ∈ cut s block) (hc : c ∈ part) : c ∈ block := by
  have hside : part = block.diff s ∨ part = block.inter s := by
    simpa using (List.mem_filter.mp hpart).1
  rcases hside with rfl | rfl
  · exact (CodeSet.mem_diff.mp hc).1
  · exact (CodeSet.mem_inter.mp hc).1

/-- Refining keeps blocks apart. -/
theorem pairwise_refine (hapart : blocks.Pairwise Apart) (s : CodeSet) :
    (refine blocks s).Pairwise Apart := by
  refine List.pairwise_flatMap.mpr ⟨fun block _ => pairwise_cut s block, hapart.imp ?_⟩
  intro a b hab part hpart other hother c hc
  exact hab c ⟨mem_of_mem_cut hpart hc.1, mem_of_mem_cut hother hc.2⟩

/-- With nothing to tell apart one block is enough. -/
theorem isCoarsest_nil : IsCoarsest [] [CodeSet.all] where
  toIsCut := isCut_nil
  coarse block hblock _ _ d hd _ := by rwa [List.mem_singleton.mp hblock]
  apart := List.pairwise_singleton _ _

namespace IsCoarsest

/-- Refining by one more set separates nothing but what that set tells apart. -/
theorem refine (hcut : IsCoarsest sets blocks) (s : CodeSet) :
    IsCoarsest (s :: sets) (Alphabet.refine blocks s) where
  toIsCut := hcut.toIsCut.refine s
  coarse part hpart c hc d hd hagree := by
    obtain ⟨hs, hsets⟩ := List.forall_mem_cons.mp hagree
    obtain ⟨block, hblock, hsub, hside⟩ := exists_block_of_mem_refine hpart
    have hdblock : d ∈ block := hcut.coarse block hblock c (hsub c hc) d hd hsets
    rcases hside with hout | hin
    · exact (hout d).mpr ⟨hdblock, fun hds => ((hout c).mp hc).2 (hs.mpr hds)⟩
    · exact (hin d).mpr ⟨hdblock, hs.mp ((hin c).mp hc).2⟩
  apart := pairwise_refine hcut.apart s

/-- Refining by one set after another tells apart what any of them does. -/
theorem foldl (hcut : IsCoarsest done blocks) (sets : List CodeSet) :
    IsCoarsest (sets.reverse ++ done) (sets.foldl Alphabet.refine blocks) :=
  foldl_refine (fun _ _ s h => h.refine s) hcut sets

/-- A coarsest cut only depends on what the sets tell apart. -/
theorem congr (hcut : IsCoarsest done blocks)
    (hagree : ∀ c d, Agree sets c d ↔ Agree done c d) : IsCoarsest sets blocks where
  covers := hcut.covers
  within := hcut.within
  nonempty := hcut.nonempty
  disjoint := hcut.disjoint
  uniform s hs block hblock c hc hcs d hd := by
    -- The codes of a block agree on all sets that it was cut along.
    have hdone : Agree done c d := fun t ht =>
      ⟨fun hct => hcut.uniform t ht block hblock c hc hct d hd,
        fun hdt => hcut.uniform t ht block hblock d hd hdt c hc⟩
    exact ((hagree c d).mpr hdone s hs).mp hcs
  coarse block hblock c hc d hd hsets := hcut.coarse block hblock c hc d hd ((hagree c d).mp hsets)
  apart := hcut.apart

variable (hcut : IsCoarsest sets blocks)
include hcut

/-- The blocks are the classes of codes that no set tells apart. -/
theorem mem_iff : block ∈ blocks ↔ IsClass sets block := by
  constructor
  · intro hblock
    obtain ⟨c, hc⟩ := hcut.nonempty block hblock
    refine ⟨c, hcut.within block hblock c hc, fun d => ⟨fun hd => ?_, fun hd => ?_⟩⟩
    · refine ⟨hcut.within block hblock d hd, fun s hs => ⟨fun hcs => ?_, fun hds => ?_⟩⟩
      · exact hcut.uniform s hs block hblock c hc hcs d hd
      · exact hcut.uniform s hs block hblock d hd hds c hc
    · exact hcut.coarse block hblock c hc d hd.1 hd.2
  · rintro ⟨c, hc, hclass⟩
    obtain ⟨other, hother, hmem⟩ := hcut.covers c hc
    have heq : block = other := by
      refine CodeSet.eq_of_forall_mem_iff fun d => (hclass d).trans ⟨fun hd => ?_, fun hd => ?_⟩
      · exact hcut.coarse other hother c hmem d hd.1 hd.2
      · refine ⟨hcut.within other hother d hd, fun s hs => ⟨fun hcs => ?_, fun hds => ?_⟩⟩
        · exact hcut.uniform s hs other hother c hmem hcs d hd
        · exact hcut.uniform s hs other hother d hd hds c hmem
    rwa [heq]

/-- No block occurs twice. -/
theorem nodup : blocks.Nodup := by
  refine hcut.apart.imp_of_mem fun {a b} ha _ hab heq => ?_
  obtain ⟨c, hc⟩ := hcut.nonempty a ha
  exact hab c ⟨hc, heq ▸ hc⟩

end IsCoarsest

/-- Two coarsest cuts along the same sets have the same blocks. -/
theorem IsCoarsest.perm (hcut : IsCoarsest sets blocks) (hcut' : IsCoarsest sets blocks') :
    blocks.Perm blocks' :=
  (List.perm_ext_iff_of_nodup hcut.nodup hcut'.nodup).mpr fun _ =>
    hcut.mem_iff.trans hcut'.mem_iff.symm

/-- The blocks are the coarsest that the sets and the silent code allow. -/
theorem isCoarsest_blocks (sets : List CodeSet) :
    IsCoarsest (CodeSet.silent :: sets) (Alphabet.blocks sets) := by
  refine (isCoarsest_nil.foldl (CodeSet.silent :: sets.eraseDups)).congr fun c d => ?_
  have hmem : ∀ s, s ∈ (CodeSet.silent :: sets.eraseDups).reverse ++ [] ↔
      s ∈ CodeSet.silent :: sets := by
    intro s
    rw [List.append_nil, List.mem_reverse, List.mem_cons, List.mem_cons, List.mem_eraseDups]
  exact forall_congr' fun s => imp_congr_left (hmem s).symm

/-! ## Pieces -/

/-- Any two sets compare one way or the other. -/
theorem isLE_total (s t : CodeSet) : ((compare s t).isLE || (compare t s).isLE) = true := by
  rw [Std.OrientedOrd.eq_swap (a := t)]
  cases compare s t <;> rfl

/-- Words over boundaries are ordered by their first ones before all others. -/
theorem le_of_isLE_compare_cons {a b : Int} {as bs : List Int}
    (hle : (compare (a :: as) (b :: bs)).isLE) : a ≤ b := by
  rw [List.compare_cons_cons] at hle
  refine Int.not_lt.mp fun hlt => ?_
  have hgt : compare a b = .gt := Int.compare_eq_gt.mpr hlt
  rw [hgt] at hle
  cases hle

/-- Sets without common codes are ordered by their first codes. -/
theorem before_of_isLE (hs : ∃ c, c ∈ s) (ht : ∃ c, c ∈ t) (hapart : Apart s t)
    (hle : (compare s t).isLE) : Before s t := by
  obtain ⟨c, hc⟩ := hs
  obtain ⟨d, hd⟩ := ht
  obtain ⟨first, hfirst, -⟩ := CodeSet.exists_first?_of_mem hc
  obtain ⟨first', hfirst', -⟩ := CodeSet.exists_first?_of_mem hd
  have hne : first ≠ first' := fun heq =>
    hapart first ⟨CodeSet.mem_of_first? hfirst, heq ▸ CodeSet.mem_of_first? hfirst'⟩
  have hle' : first ≤ first' := by
    obtain ⟨as, has⟩ := List.head?_eq_some_iff.mp hfirst
    obtain ⟨bs, hbs⟩ := List.head?_eq_some_iff.mp hfirst'
    change (compare s.boundaries t.boundaries).isLE at hle
    rw [has, hbs] at hle
    exact le_of_isLE_compare_cons hle
  exact ⟨first, first', hfirst, hfirst', by omega⟩

/-- No two blocks come before one another. -/
theorem Before.asymm (h : Before s t) : ¬Before t s := by
  rintro ⟨d, c, hd, hc, hlt⟩
  obtain ⟨c', d', hc', hd', hlt'⟩ := h
  obtain rfl := Option.some.inj (hc.symm.trans hc')
  obtain rfl := Option.some.inj (hd.symm.trans hd')
  omega

/-- The parts of a set in some blocks, as far as they have codes. -/
def parts (blocks : List CodeSet) (s : CodeSet) : List CodeSet :=
  (blocks.map fun block => block.inter s).filter fun part => !part.isEmpty

/-- The parts of a set among two lists are those among each. -/
theorem parts_append (blocks others : List CodeSet) (s : CodeSet) :
    parts (blocks ++ others) s = parts blocks s ++ parts others s := by
  rw [parts, List.map_append, List.filter_append, parts, parts]

/-- The parts depend on the members within the blocks alone. -/
theorem parts_congr (h : ∀ block ∈ blocks, ∀ c ∈ block, c ∈ s ↔ c ∈ t) :
    parts blocks s = parts blocks t := by
  have hmap : (blocks.map fun block => block.inter s) = blocks.map fun block => block.inter t :=
    List.map_congr_left fun block hblock => CodeSet.eq_of_forall_mem_iff fun c => by
      rw [CodeSet.mem_inter, CodeSet.mem_inter]
      exact and_congr_right (h block hblock c)
  rw [parts, hmap, parts]

/-- The empty set has no parts. -/
theorem parts_eq_nil (hempty : s.isEmpty = true) (blocks : List CodeSet) : parts blocks s = [] := by
  refine List.filter_eq_nil_iff.mpr fun part hpart => ?_
  obtain ⟨block, -, rfl⟩ := List.mem_map.mp hpart
  have hnone : (block.inter s).isEmpty = true := isEmpty_iff_forall_not_mem.mpr fun c hc =>
    isEmpty_iff_forall_not_mem.mp hempty c (CodeSet.mem_inter.mp hc).2
  simp [hnone]

/-- The pieces are the parts in order. -/
theorem pieces_eq_mergeSort (blocks : List CodeSet) (s : CodeSet) :
    pieces blocks s = (parts blocks s).mergeSort fun a b => (compare a b).isLE :=
  rfl

/-- The pieces of a set are its parts in the blocks that it meets. -/
theorem mem_pieces_iff_exists :
    part ∈ pieces blocks s ↔ (∃ block ∈ blocks, part = block.inter s) ∧ ∃ c, c ∈ part := by
  simp only [pieces, List.mem_mergeSort, List.mem_filter, List.mem_map, Bool.not_eq_true',
    CodeSet.isEmpty_eq_false_iff, eq_comm (a := part)]

/-- The parts of sets without common codes have none. -/
theorem pairwise_apart_pieces (hapart : blocks.Pairwise Apart) (s : CodeSet) :
    (pieces blocks s).Pairwise Apart := by
  have hparts : (blocks.map fun block => block.inter s).Pairwise Apart :=
    List.pairwise_map.mpr (hapart.imp fun hab c hc =>
      hab c ⟨(CodeSet.mem_inter.mp hc.1).1, (CodeSet.mem_inter.mp hc.2).1⟩)
  exact ((List.mergeSort_perm _ _).pairwise_iff Apart.symm).mpr (hparts.filter _)

/-- Pieces come in the order of their first codes. -/
theorem pairwise_before_pieces (hapart : blocks.Pairwise Apart) (s : CodeSet) :
    (pieces blocks s).Pairwise Before := by
  have hsorted : (pieces blocks s).Pairwise fun a b => (compare a b).isLE :=
    List.pairwise_mergeSort (fun a b c => Std.TransOrd.isLE_trans (a := a) (b := b) (c := c))
      isLE_total _
  refine (hsorted.and (pairwise_apart_pieces hapart s)).imp_of_mem fun {a b} ha hb hab => ?_
  exact before_of_isLE (mem_pieces_iff_exists.mp ha).2 (mem_pieces_iff_exists.mp hb).2 hab.2 hab.1

/-- The pieces of a set do not depend on the order of the blocks. -/
theorem pieces_eq_of_perm (hapart : blocks.Pairwise Apart) (hperm : blocks.Perm blocks')
    (s : CodeSet) : pieces blocks s = pieces blocks' s := by
  have hapart' : blocks'.Pairwise Apart := (hperm.pairwise_iff Apart.symm).mp hapart
  have hpieces : (pieces blocks s).Perm (pieces blocks' s) :=
    (List.mergeSort_perm _ _).trans
      (((hperm.map _).filter _).trans (List.mergeSort_perm _ _).symm)
  exact hpieces.eq_of_pairwise (fun _ _ _ _ hab hba => absurd hba hab.asymm)
    (pairwise_before_pieces hapart s) (pairwise_before_pieces hapart' s)

/-- What some blocks have of a set, in the order of the first codes. -/
structure ArePieces (blocks : List CodeSet) (s : CodeSet) (parts : List CodeSet) : Prop where
  mem_iff : ∀ part, part ∈ parts ↔ (∃ block ∈ blocks, part = block.inter s) ∧ ∃ c, c ∈ part
  before : parts.Pairwise Before
  apart : parts.Pairwise Apart
  covers : ∀ c, (∃ part ∈ parts, c ∈ part) ↔ c ∈ s ∧ c ∈ CodeSet.all

/-- The pieces of a set in a coarsest cut have all codes of it. -/
theorem IsCoarsest.arePieces (hcut : IsCoarsest sets blocks) (s : CodeSet) :
    ArePieces blocks s (pieces blocks s) where
  mem_iff _ := mem_pieces_iff_exists
  before := pairwise_before_pieces hcut.apart s
  apart := pairwise_apart_pieces hcut.apart s
  covers c := by
    constructor
    · rintro ⟨part, hpart, hc⟩
      obtain ⟨⟨block, hblock, rfl⟩, -⟩ := mem_pieces_iff_exists.mp hpart
      obtain ⟨hmem, hs⟩ := CodeSet.mem_inter.mp hc
      exact ⟨hs, hcut.within block hblock c hmem⟩
    · rintro ⟨hs, hall⟩
      obtain ⟨block, hblock, hmem⟩ := hcut.covers c hall
      have hc : c ∈ block.inter s := CodeSet.mem_inter.mpr ⟨hmem, hs⟩
      exact ⟨_, mem_pieces_iff_exists.mpr ⟨⟨block, hblock, rfl⟩, c, hc⟩, hc⟩

/-- Pieces of sets that were cut along are equal or have no code in common. -/
theorem IsCut.eq_or_apart_of_mem_pieces (hcut : IsCut sets blocks) (hs : s ∈ sets) (ht : t ∈ sets)
    {p q : CodeSet} (hp : p ∈ pieces blocks s) (hq : q ∈ pieces blocks t) : p = q ∨ Apart p q := by
  by_cases hcommon : ∃ c, c ∈ p ∧ c ∈ q
  · obtain ⟨c, hc⟩ := hcommon
    have hpblock : p ∈ blocks := ((hcut.mem_pieces_iff hs).mp hp).1
    have hqblock : q ∈ blocks := ((hcut.mem_pieces_iff ht).mp hq).1
    exact Or.inl (hcut.disjoint p hpblock q hqblock c hc.1 hc.2)
  · exact Or.inr fun c hc => hcommon ⟨c, hc⟩

end Alphabet
end Munch

import Mathlib.Data.List.Basic
import Munch.Alphabet.Tree
import Munch.Proofs.Alphabet.Coarsest

/-!
# Cutting the alphabet in a tree

A set that is inserted into a tree of blocks cuts the leaves that have codes on both sides of it.
The shape of the tree depends on the order in which the sets come, but its leaves do not: each
set refines them as it refines a list of blocks.

Main results:

- Theorem {lit}`Alphabet.Tree.leaves_insert`: a set refines the leaves of a tree.
- Theorem {lit}`Alphabet.Tree.pieces_eq`: what one comes upon on the way down with a set.
- Theorem {lit}`Alphabet.Tree.leaves_and_pieces_ofSets`: the leaves of the tree that is made
  from some sets, and the pieces of any set in it.
-/

namespace Munch
namespace Alphabet

variable {blocks sets : List CodeSet} {s t block : CodeSet}

/-! ## Sets that cut nothing -/

/-- A set within another one is what they have in common. -/
theorem inter_eq_left (h : ∀ c ∈ s, c ∈ t) : s.inter t = s := by
  refine CodeSet.eq_of_forall_mem_iff fun c => ?_
  rw [CodeSet.mem_inter]
  exact ⟨And.left, fun hc => ⟨hc, h c hc⟩⟩

theorem inter_eq_right (h : ∀ c ∈ t, c ∈ s) : s.inter t = t := by
  refine CodeSet.eq_of_forall_mem_iff fun c => ?_
  rw [CodeSet.mem_inter]
  exact ⟨And.right, fun hc => ⟨h c hc, hc⟩⟩

/-- Sets without a common code have none in common. -/
theorem isEmpty_inter (h : ∀ c ∈ s, c ∉ t) : (s.inter t).isEmpty = true := by
  refine isEmpty_iff_forall_not_mem.mpr fun c hc => ?_
  exact h c (CodeSet.mem_inter.mp hc).1 (CodeSet.mem_inter.mp hc).2

/-- Only what a set has in common with a block matters. -/
theorem cut_congr (h : ∀ c ∈ block, c ∈ s ↔ c ∈ t) : cut s block = cut t block := by
  have hdiff : block.diff s = block.diff t := CodeSet.eq_of_forall_mem_iff fun c => by
    rw [CodeSet.mem_diff, CodeSet.mem_diff]
    exact and_congr_right fun hc => not_congr (h c hc)
  have hinter : block.inter s = block.inter t := CodeSet.eq_of_forall_mem_iff fun c => by
    rw [CodeSet.mem_inter, CodeSet.mem_inter]
    exact and_congr_right (h c)
  rw [cut, hdiff, hinter, cut]

/-- Sets that agree within the blocks refine them alike. -/
theorem refine_congr (h : ∀ block ∈ blocks, ∀ c ∈ block, c ∈ s ↔ c ∈ t) :
    refine blocks s = refine blocks t :=
  List.flatMap_congr fun block hblock => cut_congr (h block hblock)

/-- A block on one side of a set is not cut. -/
theorem cut_eq_singleton (hblock : ∃ c, c ∈ block)
    (hside : (∀ c ∈ block, c ∈ s) ∨ ∀ c ∈ block, c ∉ s) : cut s block = [block] := by
  have hempty : block.isEmpty = false := CodeSet.isEmpty_eq_false_iff.mpr hblock
  rcases hside with hin | hout
  · have hdiff : (block.diff s).isEmpty = true := isEmpty_iff_forall_not_mem.mpr fun c hc =>
      (CodeSet.mem_diff.mp hc).2 (hin c (CodeSet.mem_diff.mp hc).1)
    simp [cut, hdiff, inter_eq_left hin, hempty]
  · have hdiff : block.diff s = block := CodeSet.eq_of_forall_mem_iff fun c => by
      rw [CodeSet.mem_diff]
      exact ⟨And.left, fun hc => ⟨hc, hout c hc⟩⟩
    simp [cut, hdiff, isEmpty_inter hout, hempty]

/-- A set that no block lies on both sides of refines nothing. -/
theorem refine_eq_self (hblocks : ∀ block ∈ blocks, ∃ c, c ∈ block)
    (hside : ∀ block ∈ blocks, (∀ c ∈ block, c ∈ s) ∨ ∀ c ∈ block, c ∉ s) :
    refine blocks s = blocks := by
  have hcut : ∀ block ∈ blocks, cut s block = [block] := fun block hblock =>
    cut_eq_singleton (hblocks block hblock) (hside block hblock)
  rw [refine, List.flatMap_congr hcut, List.flatMap_singleton']

namespace Tree

variable {tree outside inside : Tree} {own : CodeSet}

/-! ## What inserting a set does -/

/-- All codes of a tree are on one side of a set. -/
def OneSided (tree : Tree) (s : CodeSet) : Prop :=
  (∀ c ∈ tree.codes, c ∈ s) ∨ ∀ c ∈ tree.codes, c ∉ s

/-- Cutting along all codes cuts nothing. -/
theorem cutAlong_codes (tree : Tree) : tree.cutAlong tree.codes = tree := by
  cases tree with
  | leaf own => rw [codes, cutAlong, if_pos rfl]
  | node own outside inside => rw [codes, cutAlong, if_pos rfl]

/-- A tree on one side of a set is not cut. -/
theorem insert_of_oneSided (hside : tree.OneSided s) : tree.insert s = tree := by
  rw [insert]
  rcases hside with hin | hout
  · rw [inter_eq_left hin, cutAlong_codes, ite_self]
  · rw [if_pos (isEmpty_inter hout)]

/-- A set that a tree is on both sides of has some of its codes, but not all. -/
theorem inter_of_not_oneSided (hside : ¬tree.OneSided s) :
    (∃ c, c ∈ tree.codes.inter s) ∧ ∃ c ∈ tree.codes, c ∉ tree.codes.inter s := by
  simp only [OneSided, not_or, not_forall, not_not] at hside
  obtain ⟨⟨c, hc, hout⟩, d, hd, hin⟩ := hside
  exact ⟨⟨d, CodeSet.mem_inter.mpr ⟨hd, hin⟩⟩, c, hc, fun h => hout (CodeSet.mem_inter.mp h).2⟩

/-- A set with codes on both sides cuts the tree. -/
theorem insert_of_not_oneSided (hside : ¬tree.OneSided s) :
    tree.codes ≠ tree.codes.inter s ∧ tree.insert s = tree.cutAlong (tree.codes.inter s) := by
  obtain ⟨hsome, c, hc, hout⟩ := inter_of_not_oneSided hside
  refine ⟨fun heq => hout (heq ▸ hc), ?_⟩
  rw [insert, CodeSet.isEmpty_eq_false_iff.mpr hsome]
  rfl

/-- A leaf is cut into what lies outside and what lies inside. -/
theorem insert_leaf (hside : ¬(leaf own).OneSided s) :
    (leaf own).insert s = node own (leaf (own.diff (own.inter s))) (leaf (own.inter s)) := by
  obtain ⟨hne, hinsert⟩ := insert_of_not_oneSided hside
  rw [hinsert]
  exact if_neg hne

/-- Below its topmost node a tree is cut by inserting the set into both children. -/
theorem insert_node (hside : ¬(node own outside inside).OneSided s) :
    (node own outside inside).insert s =
      node own (outside.insert (own.inter s)) (inside.insert (own.inter s)) := by
  obtain ⟨hne, hinsert⟩ := insert_of_not_oneSided hside
  rw [hinsert]
  exact if_neg hne

/-- Inserting a set leaves the codes of a tree. -/
theorem codes_insert (tree : Tree) (s : CodeSet) : (tree.insert s).codes = tree.codes := by
  by_cases hside : tree.OneSided s
  · rw [insert_of_oneSided hside]
  · cases tree with
    | leaf own => rw [insert_leaf hside, codes, codes]
    | node own outside inside => rw [insert_node hside, codes, codes]

/-! ## Proper trees -/

/-- A tree in which no leaf is empty and children divide the codes of their parents. -/
def Proper : Tree → Prop
  | leaf own => ∃ c, c ∈ own
  | node own outside inside =>
    (∀ c, c ∈ own ↔ c ∈ outside.codes ∨ c ∈ inside.codes) ∧ Apart outside.codes inside.codes ∧
      outside.Proper ∧ inside.Proper

namespace Proper

/-- No leaf of a proper tree is empty. -/
theorem exists_mem_of_mem_leaves (htree : tree.Proper) : ∀ leaf ∈ tree.leaves, ∃ c, c ∈ leaf := by
  induction tree with
  | leaf own => exact List.forall_mem_singleton.mpr htree
  | node own outside inside ihOutside ihInside =>
    obtain ⟨-, -, houtside, hinside⟩ := htree
    exact List.forall_mem_append.mpr ⟨ihOutside houtside, ihInside hinside⟩

/-- Leaves have codes of the tree only. -/
theorem mem_codes_of_mem_leaves (htree : tree.Proper) :
    ∀ leaf ∈ tree.leaves, ∀ c ∈ leaf, c ∈ tree.codes := by
  induction tree with
  | leaf own => exact List.forall_mem_singleton.mpr fun _ hc => hc
  | node own outside inside ihOutside ihInside =>
    obtain ⟨hcodes, -, houtside, hinside⟩ := htree
    refine List.forall_mem_append.mpr ⟨fun leaf hleaf c hc => ?_, fun leaf hleaf c hc => ?_⟩
    · exact (hcodes c).mpr (Or.inl (ihOutside houtside leaf hleaf c hc))
    · exact (hcodes c).mpr (Or.inr (ihInside hinside leaf hleaf c hc))

/-- Inserting a set keeps a tree proper. -/
theorem insert (htree : tree.Proper) (s : CodeSet) : (tree.insert s).Proper := by
  induction tree generalizing s with
  | leaf own =>
    by_cases hside : (leaf own).OneSided s
    · rwa [insert_of_oneSided hside]
    · rw [insert_leaf hside]
      obtain ⟨hsome, c, hc, hout⟩ := inter_of_not_oneSided hside
      refine ⟨fun c => ⟨fun hc => ?_, fun hc => ?_⟩, fun c hc => (CodeSet.mem_diff.mp hc.1).2 hc.2,
        ⟨c, CodeSet.mem_diff.mpr ⟨hc, hout⟩⟩, hsome⟩
      · by_cases hin : c ∈ own.inter s
        · exact Or.inr hin
        · exact Or.inl (CodeSet.mem_diff.mpr ⟨hc, hin⟩)
      · rcases hc with hc | hc
        · exact (CodeSet.mem_diff.mp hc).1
        · exact (CodeSet.mem_inter.mp hc).1
  | node own outside inside ihOutside ihInside =>
    by_cases hside : (node own outside inside).OneSided s
    · rwa [insert_of_oneSided hside]
    · rw [insert_node hside]
      obtain ⟨hcodes, hapart, houtside, hinside⟩ := htree
      refine ⟨?_, ?_, ihOutside houtside _, ihInside hinside _⟩
      · rwa [codes_insert, codes_insert]
      · rwa [codes_insert, codes_insert]

end Proper

/-! ## Leaves -/

/-- Of a set only the codes of the tree refine its leaves. -/
theorem refine_leaves_inter (own : CodeSet) (hsub : ∀ leaf ∈ tree.leaves, ∀ c ∈ leaf, c ∈ own)
    (s : CodeSet) :
    refine tree.leaves (own.inter s) = refine tree.leaves s := by
  refine refine_congr fun leaf hleaf c hc => ?_
  rw [CodeSet.mem_inter]
  exact ⟨And.right, fun hs => ⟨hsub leaf hleaf c hc, hs⟩⟩

/-- A tree on one side of a set keeps its leaves. -/
theorem refine_leaves_of_oneSided (htree : tree.Proper) (hside : tree.OneSided s) :
    refine tree.leaves s = tree.leaves := by
  refine refine_eq_self htree.exists_mem_of_mem_leaves fun leaf hleaf => ?_
  have hsub := htree.mem_codes_of_mem_leaves leaf hleaf
  rcases hside with hin | hout
  · exact Or.inl fun c hc => hin c (hsub c hc)
  · exact Or.inr fun c hc => hout c (hsub c hc)

/-- A set refines the leaves of a tree. -/
theorem leaves_insert (htree : tree.Proper) (s : CodeSet) :
    (tree.insert s).leaves = refine tree.leaves s := by
  induction tree generalizing s with
  | leaf own =>
    by_cases hside : (leaf own).OneSided s
    · rw [insert_of_oneSided hside, refine_leaves_of_oneSided htree hside]
    · rw [insert_leaf hside]
      obtain ⟨hsome, c, hc, hout⟩ := inter_of_not_oneSided hside
      have hcut : cut s own = cut (own.inter s) own := cut_congr fun d hd => by
        rw [CodeSet.mem_inter]
        exact ⟨fun hs => ⟨hd, hs⟩, And.right⟩
      have hinter : own.inter (own.inter s) = own.inter s :=
        inter_eq_right fun d hd => (CodeSet.mem_inter.mp hd).1
      have hin : (own.inter s).isEmpty = false := CodeSet.isEmpty_eq_false_iff.mpr hsome
      have hrest : (own.diff (own.inter s)).isEmpty = false :=
        CodeSet.isEmpty_eq_false_iff.mpr ⟨c, CodeSet.mem_diff.mpr ⟨hc, hout⟩⟩
      calc [own.diff (own.inter s), own.inter s]
          = cut (own.inter s) own := by simp [cut, hinter, hin, hrest]
        _ = cut s own := hcut.symm
        _ = refine [own] s := by simp [refine]
  | node own outside inside ihOutside ihInside =>
    by_cases hside : (node own outside inside).OneSided s
    · rw [insert_of_oneSided hside, refine_leaves_of_oneSided htree hside]
    · rw [insert_node hside]
      have hsub := htree.mem_codes_of_mem_leaves
      obtain ⟨hsubOutside, hsubInside⟩ := List.forall_mem_append.mp hsub
      obtain ⟨-, -, houtside, hinside⟩ := htree
      calc (outside.insert (own.inter s)).leaves ++ (inside.insert (own.inter s)).leaves
          = refine outside.leaves (own.inter s) ++ refine inside.leaves (own.inter s) := by
            rw [ihOutside houtside, ihInside hinside]
        _ = refine outside.leaves s ++ refine inside.leaves s := by
            rw [refine_leaves_inter own hsubOutside, refine_leaves_inter own hsubInside]
        _ = refine (outside.leaves ++ inside.leaves) s := List.flatMap_append.symm

/-- One set after the other is inserted. -/
theorem foldl_insert (htree : tree.Proper) (sets : List CodeSet) :
    (sets.foldl insert tree).Proper ∧ (sets.foldl insert tree).codes = tree.codes ∧
      (sets.foldl insert tree).leaves = sets.foldl refine tree.leaves := by
  induction sets generalizing tree with
  | nil => exact ⟨htree, rfl, rfl⟩
  | cons s sets ih =>
    obtain ⟨hproper, hcodes, hleaves⟩ := ih (htree.insert s)
    rw [List.foldl_cons, List.foldl_cons, ← leaves_insert htree]
    exact ⟨hproper, hcodes.trans (codes_insert tree s), hleaves⟩

/-! ## Pieces -/

/-- On the way down one comes upon the parts of a set in the leaves. -/
theorem piecesIn_eq (htree : tree.Proper) (hsub : ∀ c ∈ s, c ∈ tree.codes) :
    tree.piecesIn s = parts tree.leaves s := by
  induction tree generalizing s with
  | leaf own =>
    have hinter : own.inter s = s := inter_eq_right hsub
    cases hempty : s.isEmpty <;> simp [piecesIn, parts, leaves, hinter, hempty]
  | node own outside inside ihOutside ihInside =>
    have hleaves := htree.mem_codes_of_mem_leaves
    obtain ⟨hcodes, hapart, houtside, hinside⟩ := htree
    rw [piecesIn]
    split
    · rename_i hempty
      exact (parts_eq_nil hempty _).symm
    · rw [ihOutside houtside fun c hc => (CodeSet.mem_inter.mp hc).2,
        ihInside hinside fun c hc => (CodeSet.mem_inter.mp hc).2, leaves, parts_append]
      congr 1
      · refine parts_congr fun leaf hleaf c hc => ?_
        have hc' := houtside.mem_codes_of_mem_leaves leaf hleaf c hc
        rw [CodeSet.mem_inter]
        exact ⟨And.left, fun hs => ⟨hs, hc'⟩⟩
      · refine parts_congr fun leaf hleaf c hc => ?_
        have hc' := hinside.mem_codes_of_mem_leaves leaf hleaf c hc
        rw [CodeSet.mem_inter, CodeSet.mem_diff]
        exact ⟨fun h => h.1.1, fun hs => ⟨⟨hs, fun hout => hapart c ⟨hout, hc'⟩⟩, hc'⟩⟩

/-- The pieces of a set in a tree are those in its leaves. -/
theorem pieces_eq (htree : tree.Proper) (s : CodeSet) :
    tree.pieces s = Alphabet.pieces tree.leaves s := by
  have hparts : tree.piecesIn (s.inter tree.codes) = parts tree.leaves s := by
    rw [piecesIn_eq htree fun c hc => (CodeSet.mem_inter.mp hc).2]
    refine parts_congr fun leaf hleaf c hc => ?_
    rw [CodeSet.mem_inter]
    exact ⟨And.left, fun hs => ⟨hs, htree.mem_codes_of_mem_leaves leaf hleaf c hc⟩⟩
  rw [pieces, hparts, pieces_eq_mergeSort]

/-! ## The tree of some sets -/

/-- A single leaf with all codes is proper. -/
theorem proper_all : (leaf CodeSet.all).Proper := ⟨0, by decide⟩

/-- The sets that are inserted are those that cut something. -/
theorem mem_inOrder_iff :
    s ∈ inOrder sets ↔ s ∈ sets ∧ s.isEmpty = false ∧ s ≠ CodeSet.silent := by
  simp [inOrder]

/-- Leaving out the empty set and the silent code again tells apart the same codes. -/
theorem agree_inOrder_iff {c d : Int} :
    Agree (CodeSet.silent :: sets) c d ↔ Agree (CodeSet.silent :: inOrder sets) c d := by
  simp only [Agree, List.forall_mem_cons]
  refine and_congr_right fun hsilent => ⟨fun h s hs => ?_, fun h s hs => ?_⟩
  · exact h s (mem_inOrder_iff.mp hs).1
  · cases hempty : s.isEmpty with
    | true =>
      have hnone := isEmpty_iff_forall_not_mem.mp hempty
      exact iff_of_false (hnone c) (hnone d)
    | false =>
      by_cases heq : s = CodeSet.silent
      · rw [heq]
        exact hsilent
      · exact h s (mem_inOrder_iff.mpr ⟨hs, hempty, heq⟩)

/-- The tree of some sets is proper. -/
theorem proper_ofSets (sets : List CodeSet) : (ofSets sets).Proper :=
  (foldl_insert proper_all _).1

/-- It holds all codes. -/
theorem codes_ofSets (sets : List CodeSet) : (ofSets sets).codes = CodeSet.all :=
  (foldl_insert proper_all _).2.1

/-- The leaves of the tree of some sets are the coarsest cut along them. -/
theorem isCoarsest_leaves_ofSets (sets : List CodeSet) :
    IsCoarsest (CodeSet.silent :: sets) (ofSets sets).leaves := by
  have hleaves : (ofSets sets).leaves =
      (CodeSet.silent :: inOrder sets).foldl refine [CodeSet.all] := (foldl_insert proper_all _).2.2
  rw [hleaves]
  refine (isCoarsest_nil.foldl (CodeSet.silent :: inOrder sets)).congr fun c d => ?_
  rw [agree_inOrder_iff]
  simp only [Agree, List.append_nil, List.mem_reverse]

/-- The tree of some sets has as its leaves the classes of codes that neither the silent code
nor any of the sets tells apart.  Whatever set is looked for in it, its pieces are what the
leaves have of it, in the order of their first codes.  Pieces of sets that the tree was made
from are the same or have no code in common.  The blocks that are found without a tree are the
leaves, and the pieces in them are the same. -/
theorem leaves_and_pieces_ofSets (sets : List CodeSet) :
    (ofSets sets).Proper ∧ (ofSets sets).codes = CodeSet.all ∧
    (∀ leaf, leaf ∈ (ofSets sets).leaves ↔ ∃ c ∈ CodeSet.all, ∀ d, d ∈ leaf ↔
      d ∈ CodeSet.all ∧ (c = Code.silent ↔ d = Code.silent) ∧ ∀ s ∈ sets, c ∈ s ↔ d ∈ s) ∧
    (ofSets sets).leaves.Nodup ∧ (ofSets sets).leaves.Perm (Alphabet.blocks sets) ∧
    (∀ query, ArePieces (ofSets sets).leaves query ((ofSets sets).pieces query) ∧
      (ofSets sets).pieces query = Alphabet.pieces (Alphabet.blocks sets) query) ∧
    ∀ s ∈ sets, ∀ t ∈ sets, ∀ p ∈ (ofSets sets).pieces s, ∀ q ∈ (ofSets sets).pieces t,
      p = q ∨ Apart p q := by
  have hproper := proper_ofSets sets
  have hcut := isCoarsest_leaves_ofSets sets
  have hperm := hcut.perm (isCoarsest_blocks sets)
  refine ⟨hproper, codes_ofSets sets, fun leaf => ?_, hcut.nodup, hperm, fun query => ⟨?_, ?_⟩, ?_⟩
  · rw [hcut.mem_iff, IsClass]
    simp only [Agree, List.forall_mem_cons, CodeSet.mem_silent]
  · rw [pieces_eq hproper]
    exact hcut.arePieces query
  · rw [pieces_eq hproper]
    exact pieces_eq_of_perm hcut.apart hperm query
  · intro s hs t ht p hp q hq
    rw [pieces_eq hproper] at hp hq
    have hs' := List.mem_cons_of_mem CodeSet.silent hs
    exact hcut.eq_or_apart_of_mem_pieces hs' (List.mem_cons_of_mem _ ht) hp hq

/-- A set that the tree was not made from is cut where the sets that it was made from begin or
end. -/
example :
    ((ofSets [CodeSet.range 20 30 (by decide), CodeSet.range 25 33 (by decide)]).pieces
      (CodeSet.range 20 33 (by decide))).map CodeSet.boundaries =
        [[20, 25], [25, 30], [30, 33]] := by
  cbv

end Tree
end Alphabet
end Munch

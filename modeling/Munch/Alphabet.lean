import Munch.CodeSet.Basic

/-!
# Cutting the alphabet

Subset construction has to treat the alphabet symbol by symbol, but there are
over a million symbols.  Here the alphabet is cut into blocks so that every label
of an automaton is a union of blocks; each block then acts as one symbol.

Main results:

- Definition {lit}`Alphabet.blocks`: the blocks into which some sets cut all codes.
- Theorem {lit}`Alphabet.exists_mem_refine`: refining loses no code.
-/

namespace Munch
namespace Alphabet

/-- The parts of a block inside and outside a set, as far as they have codes. -/
def cut (s block : CodeSet) : List CodeSet :=
  [block.diff s, block.inter s].filter fun part => !part.isEmpty

/-- Cuts every block at the border of a set. -/
def refine (blocks : List CodeSet) (s : CodeSet) : List CodeSet := blocks.flatMap (cut s)

/-- The coarsest cut of all codes in which the silent code stands alone and
every given set is a union of blocks. -/
def blocks (sets : List CodeSet) : List CodeSet :=
  (CodeSet.silent :: sets.eraseDups).foldl refine [CodeSet.all]

/-- The parts of a set in the blocks that it meets, in increasing order. -/
def pieces (blocks : List CodeSet) (s : CodeSet) : List CodeSet :=
  ((blocks.map fun block => block.inter s).filter fun part => !part.isEmpty).mergeSort
    fun a b => (compare a b).isLE

theorem isEmpty_eq_false_of_contains {s : CodeSet} {code : Int} (h : s.contains code = true) :
    s.isEmpty = false := by
  unfold CodeSet.contains at h
  unfold CodeSet.isEmpty
  cases hs : s.boundaries with
  | nil => simp [hs, insideAt] at h
  | cons => rfl

/-- Refining loses no code: a code of a block lies in a block of the refinement. -/
theorem exists_mem_refine {blocks : List CodeSet} {s block : CodeSet} {code : Int}
    (hblock : block ∈ blocks) (hcode : block.contains code = true) :
    ∃ part ∈ refine blocks s, part.contains code = true := by
  cases hs : s.contains code with
  | false =>
    have hpart : (block.diff s).contains code = true := by simp [hcode, hs]
    refine ⟨block.diff s, List.mem_flatMap.mpr ⟨block, hblock, ?_⟩, hpart⟩
    simp [cut, isEmpty_eq_false_of_contains hpart]
  | true =>
    have hpart : (block.inter s).contains code = true := by simp [hcode, hs]
    refine ⟨block.inter s, List.mem_flatMap.mpr ⟨block, hblock, ?_⟩, hpart⟩
    simp [cut, isEmpty_eq_false_of_contains hpart]

end Alphabet
end Munch

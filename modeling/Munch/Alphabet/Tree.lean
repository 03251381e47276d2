import Munch.Alphabet

/-!
# Blocks in a tree

The blocks of the alphabet can also be kept as the leaves of a tree.  Every node has some codes,
which its two children divide among them.  A set goes down from the root to the nodes whose codes
it has a part of: where that part is all codes of the node, nothing is cut; a leaf of which it is
less gets two children, what is outside the set and what is inside.  Large sets go first.

Main results:

- Definition {lit}`Alphabet.Tree.ofSets`: the tree of some sets.
- Definition {lit}`Alphabet.Tree.pieces`: the parts of a set in the leaves.
-/

namespace Munch
namespace Alphabet

/-- Blocks of codes as the leaves of a tree. -/
inductive Tree where
  /-- Codes that have not been told apart. -/
  | leaf (own : CodeSet)
  /-- Codes that a set has divided into those outside and those inside it. -/
  | node (own : CodeSet) (outside inside : Tree)
deriving DecidableEq

namespace Tree

/-- The codes of the topmost node. -/
def codes : Tree → CodeSet
  | leaf own => own
  | node own _ _ => own

/-- The leaves from left to right. -/
def leaves : Tree → List CodeSet
  | leaf own => [own]
  | node _ outside inside => outside.leaves ++ inside.leaves

/-- Cuts a tree along a set of codes that it has.  Children are cut along what they have of the
set, if that is anything. -/
def cutAlong : Tree → CodeSet → Tree
  | leaf own, s => if own = s then leaf own else node own (leaf (own.diff s)) (leaf s)
  | node own outside inside, s =>
    if own = s then node own outside inside
    else
      let outer := outside.codes.inter s
      let inner := inside.codes.inter s
      node own (if outer.isEmpty then outside else outside.cutAlong outer)
        (if inner.isEmpty then inside else inside.cutAlong inner)

/-- Cuts a tree along what it has of a set, if that is anything. -/
def insert (tree : Tree) (s : CodeSet) : Tree :=
  let clipped := tree.codes.inter s
  if clipped.isEmpty then tree else tree.cutAlong clipped

/-- Different sets from the largest to the smallest.  The empty set and that of the silent
code are left out. -/
def inOrder (sets : List CodeSet) : List CodeSet :=
  (sets.filter fun s => !s.isEmpty && s != CodeSet.silent).eraseDups.mergeSort fun a b =>
    b.cardinality < a.cardinality || (a.cardinality == b.cardinality && (compare a b).isLE)

/-- The tree of all codes, cut along the silent code and every set. -/
def ofSets (sets : List CodeSet) : Tree :=
  (CodeSet.silent :: inOrder sets).foldl insert (leaf CodeSet.all)

/-- The parts in the leaves of a set of codes that the tree has.  What one child has of the set
need not be looked for in the other. -/
def piecesIn : Tree → CodeSet → List CodeSet
  | leaf _, s => if s.isEmpty then [] else [s]
  | node _ outside inside, s =>
    if s.isEmpty then []
    else
      outside.piecesIn (s.inter outside.codes) ++
        inside.piecesIn ((s.diff outside.codes).inter inside.codes)

/-- The parts of a set in the leaves, in increasing order. -/
def pieces (tree : Tree) (s : CodeSet) : List CodeSet :=
  (tree.piecesIn (s.inter tree.codes)).mergeSort fun a b => (compare a b).isLE

end Tree
end Alphabet
end Munch

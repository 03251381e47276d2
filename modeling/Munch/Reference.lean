import Munch.Definition

/-!
# Tokenizing by simulation

A second way to tokenize, without an automaton for all tokens: every definition
is tried at every place by following the sets of states that its fragment can be
in.

Main results:

- Definition {lit}`Fragment.longestMatch`: the longest match of one fragment.
- Definition {lit}`Reference.tokenize`: the tokens of a text.
-/

namespace Munch

namespace Graph

/-- The states that can be reached from some states on one code. -/
def targetsOn (g : Graph) (states : List Nat) (code : Int) : List Nat :=
  states.flatMap fun i =>
    ((g.edges i).filter fun e => e.label.contains code).map Edge.target

end Graph

namespace Fragment

/-- Follows a text from a set of states, which has been reached after `length`
characters, and gives the length at which the exit was reached last. -/
def longestFrom (f : Fragment) (states : List Nat) (length : Nat) (best : Option Nat) :
    List Char → Option Nat
  | [] => best
  | c :: s =>
    let targets := f.graph.targetsOn states (Code.ofChar c)
    if targets.isEmpty then best
    else
      let next := f.graph.silentClosure targets
      let best := if next.contains f.ends.exit then some (length + 1) else best
      f.longestFrom next (length + 1) best s

/-- The length of the longest beginning of a text, other than the empty one, that
a fragment matches. -/
def longestMatch (f : Fragment) (s : List Char) : Option Nat :=
  f.longestFrom (f.graph.silentClosure [f.ends.entry]) 0 none s

end Fragment

namespace Reference

/-- A token with the length of its match. -/
structure Candidate where
  id : Int
  length : Nat
deriving DecidableEq, Repr

/-- The better of two candidates: the longer one, or else the one with the larger
id. -/
def better (best : Option Candidate) (found : Candidate) : Candidate :=
  match best with
  | none => found
  | some b =>
    if b.length < found.length ∨ (found.length = b.length ∧ b.id < found.id) then found else b

/-- Tries a definition at the front of a text. -/
def tryDefinition (s : List Char) (best : Option Candidate) (d : TokenDefinition) :
    Option Candidate :=
  match d.id, d.fragment.longestMatch s with
  | some id, some length => some (better best ⟨id, length⟩)
  | _, _ => best

/-- The best match at the front of a text; one character without a token if
nothing matches. -/
def bestMatch (definitions : List TokenDefinition) (s : List Char) : Candidate :=
  (definitions.foldl (tryDefinition s) none).getD ⟨unknownToken, 1⟩

/-- A piece of a text with its token. -/
structure Piece where
  id : Int
  text : List Char
deriving DecidableEq, Repr

/-- Cuts a text into the best matches from its front on. -/
def pieces (definitions : List TokenDefinition) : List Char → List Piece
  | [] => []
  | c :: s =>
    let best := bestMatch definitions (c :: s)
    ⟨best.id, c :: s.take (best.length - 1)⟩ :: pieces definitions (s.drop (best.length - 1))
termination_by s => s.length
decreasing_by
  simp only [List.length_drop, List.length_cons]
  omega

/-- The pieces of a text without those of a token to be skipped. -/
def tokenize (definitions : List TokenDefinition) (skip : Option Int) (s : List Char) :
    List Piece :=
  (pieces definitions s).filter fun piece => skip != some piece.id

end Reference
end Munch

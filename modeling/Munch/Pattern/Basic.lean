import Munch.Graph.Complement

/-!
# Patterns

A pattern is an expression over sets of codes.  It may refer to expressions that
were compiled before it; what stands for such a reference is left open.

Main results:

- Definition {lit}`Pattern.fragment`: the automaton of a pattern.
-/

namespace Munch

/-- An expression whose references are values of `ρ`. -/
inductive Pattern (ρ : Type) where
  /-- One code of a set. -/
  | codes (label : CodeSet)
  /-- Whatever a named expression matches. -/
  | reference (r : ρ)
  /-- One expression after the other. -/
  | sequence (first second : Pattern ρ)
  /-- Either expression. -/
  | choice (first second : Pattern ρ)
  /-- An expression several times. -/
  | repeated (p : Pattern ρ) (how : Repetition)
  /-- The words that leave an expression. -/
  | complement (p : Pattern ρ)
deriving DecidableEq

namespace Pattern

/-- Adds the automaton of a pattern to a graph. -/
def assemble : Pattern Fragment → Graph → Graph × Ends
  | codes label, g => g.addStep label
  | reference f, g => f.spliceInto g
  | sequence first second, g =>
    let (g, a) := first.assemble g
    let (g, b) := second.assemble g
    g.chain a b
  | choice first second, g =>
    let (g, a) := first.assemble g
    let (g, b) := second.assemble g
    g.branch a b
  | repeated p how, g =>
    let (g, a) := p.assemble g
    g.iterate a how
  | complement p, g =>
    let (g, a) := p.assemble g
    (g.prefixComplement a).spliceInto g

/-- The automaton of a pattern by itself. -/
def fragment (p : Pattern Fragment) : Fragment :=
  let (g, ends) := p.assemble Graph.empty
  g.fragmentAt ends

end Pattern
end Munch

import Munch.Pattern.Basic
import Munch.Proofs.Fragment.Complement

/-!
# What patterns match

The words that lead through the automaton of a pattern are told by two languages for
each pattern: the words that lead through, and the words that lead from the entry back
to the entry.  Passing over an operand keeps the second one, so an optional operand also
matches what leads back to its entry.  The automaton matches what the pattern denotes
exactly where this adds nothing.

Main results:

- Theorem {lit}`Pattern.glued_assemble`: the languages of an assembled pattern.
- Theorem {lit}`Pattern.matched_fragment`: the words that lead through its fragment.
- Theorem {lit}`Pattern.forall_through_eq_iff`: when a pattern and all patterns in it
  match what they denote.
-/

open scoped Computability

namespace Munch
namespace Pattern

/-- The labels hold characters, and references satisfy a predicate. -/
def Over {ρ : Type} (P : ρ → Prop) : Pattern ρ → Prop
  | codes label => ∀ c ∈ label, c ∈ CodeSet.chars
  | reference r => P r
  | sequence p q => p.Over P ∧ q.Over P
  | choice p q => p.Over P ∧ q.Over P
  | repeated p _ => p.Over P
  | complement p => p.Over P

/-- The words of one code of a set. -/
def oneCode (label : CodeSet) : Language Int := {w | ∃ c, w = [c] ∧ c ∈ label}

/-- A set of codes denotes its one-letter words. -/
theorem mem_oneCode {label : CodeSet} {w : List Int} :
    w ∈ oneCode label ↔ ∃ c, w = [c] ∧ c ∈ label :=
  Iff.rfl

/-- The words that a pattern denotes; a reference denotes what leads through its
fragment. -/
def denotation : Pattern Fragment → Language Int
  | codes label => oneCode label
  | reference f => f.matched
  | sequence p q => p.denotation * q.denotation
  | choice p q => p.denotation + q.denotation
  | repeated p .zeroOrMore => p.denotation∗
  | repeated p .oneOrMore => p.denotation * p.denotation∗
  | repeated p .optional => 1 + p.denotation
  | complement p => leavings p.denotation

mutual

/-- The words that lead through the automaton of a pattern. -/
def through : Pattern Fragment → Language Int
  | codes label => oneCode label
  | reference f => f.matched
  | sequence p q => p.through * q.through
  | choice p q => p.through + q.through
  | repeated p .zeroOrMore => (p.through + p.back)∗
  | repeated p .oneOrMore => p.through * p.through∗
  | repeated p .optional => p.through + p.back
  | complement p => leavings p.through

/-- The words that lead from its entry back to its entry. -/
def back : Pattern Fragment → Language Int
  | codes _ => 1
  | reference f => f.returned
  | sequence p _ => p.back
  | choice _ _ => 1
  | repeated p .zeroOrMore => (p.through + p.back)∗
  | repeated p .oneOrMore => p.through∗ * p.back
  | repeated p .optional => p.back
  | complement _ => 1

end

/-- The empty word always leads back. -/
theorem one_le_back (p : Pattern Fragment) : 1 ≤ p.back := by
  induction p with
  | codes label => exact le_refl 1
  | reference f => exact Graph.one_le_words f.graph f.ends.entry
  | sequence p q ihp _ => exact ihp
  | choice p q _ _ => exact le_refl 1
  | repeated p how ih =>
    cases how with
    | zeroOrMore => exact one_le_kstar
    | oneOrMore =>
      calc (1 : Language Int) = 1 * 1 := (mul_one 1).symm
        _ ≤ p.through∗ * p.back := mul_le_mul' one_le_kstar ih
    | optional => exact ih
  | complement p _ => exact le_refl 1

/-! ## Assembling -/

variable {g h : Graph} {a : Ends} {l r : Language Int}

/-- A label of characters is crossed by its one-letter words. -/
theorem steps_of_chars {label : CodeSet} (hlabel : ∀ c ∈ label, c ∈ CodeSet.chars) :
    Graph.steps label = oneCode label := by
  ext w
  rw [Graph.mem_steps]
  constructor
  · rintro (⟨-, hsilent⟩ | ⟨c, rfl, hc, -⟩)
    · exact absurd (hlabel _ hsilent) (by decide)
    · exact ⟨c, rfl, hc⟩
  · rintro ⟨c, rfl, hc⟩
    refine Or.inr ⟨c, rfl, hc, ?_⟩
    rintro rfl
    exact absurd (hlabel _ hc) (by decide)

/-- An operand that may be left out keeps what leads back to its entry. -/
theorem iterate_optional (hglued : Glued g h a l r) :
    Glued g (h.iterate a .optional).1 (h.iterate a .optional).2 (l + r) r := by
  have hoptional := hglued.optional
  have hempty : ((h.addSilent a.entry a.exit).edges a.exit).isEmpty = true := by
    rw [hoptional.edges_exit]
    rfl
  rw [Graph.iterate, Graph.bypass, Graph.freeExit, if_pos hempty]
  exact hoptional

/-- A loop glues the repetitions of an operand. -/
theorem iterate_oneOrMore (hglued : Glued g h a l r) :
    Glued g (h.iterate a .oneOrMore).1 (h.iterate a .oneOrMore).2 (l * l∗) (l∗ * r) :=
  hglued.loop

/-- Repeating an operand repeats what leads through it and what leads back. -/
theorem iterate_zeroOrMore (hglued : Glued g h a l r) :
    Glued g (h.iterate a .zeroOrMore).1 (h.iterate a .zeroOrMore).2 (l + r)∗ (l + r)∗ := by
  have hone := hglued.nil_mem_returned
  have hloop := hglued.optional.loop
  have hle : 1 ≤ l + r := hone.trans le_add_self
  have hthrough : (l + r) * (l + r)∗ = (l + r)∗ := Graph.mul_kstar_of_one_le hle
  have hback : (l + r)∗ * r = (l + r)∗ := by
    apply le_antisymm
    · calc (l + r)∗ * r ≤ (l + r)∗ * (l + r) := by gcongr; exact le_add_self
        _ ≤ (l + r)∗ := kstar_mul_le_kstar
    · calc (l + r)∗ = (l + r)∗ * 1 := (mul_one _).symm
        _ ≤ (l + r)∗ * r := by gcongr
  rw [hthrough, hback] at hloop
  exact hloop

/-- The languages of an assembled pattern. -/
theorem glued_assemble {p : Pattern Fragment} (hp : p.Over Fragment.Proper) (hplain : g.Plain) :
    Glued g (p.assemble g).1 (p.assemble g).2 p.through p.back := by
  induction p generalizing g with
  | codes label =>
    have hstep := Glued.step hplain hp
    rwa [steps_of_chars hp] at hstep
  | reference f => exact Fragment.Proper.glued_spliceInto hp hplain
  | sequence p q ihp ihq =>
    have hfirst := ihp hp.1 hplain
    exact hfirst.chain (ihq hp.2 hfirst.plain)
  | choice p q ihp ihq =>
    have hfirst := ihp hp.1 hplain
    exact hfirst.branch (ihq hp.2 hfirst.plain)
  | repeated p how ih =>
    have hinner := ih hp hplain
    cases how with
    | zeroOrMore => exact iterate_zeroOrMore hinner
    | oneOrMore => exact iterate_oneOrMore hinner
    | optional => exact iterate_optional hinner
  | complement p ih => exact (ih hp hplain).complement

section Whole

variable {p : Pattern Fragment} (hp : p.Over Fragment.Proper)
include hp

/-- The fragment of a pattern has the words through and the words back of the pattern. -/
theorem glued_fragment : Glued Graph.empty p.fragment.graph p.fragment.ends p.through p.back :=
  (glued_assemble hp Graph.plain_empty).fragmentAt

/-- The fragment of a pattern is proper. -/
theorem proper_fragment : p.fragment.Proper :=
  Fragment.proper_of_glued (glued_fragment hp)

/-- The words that lead through the fragment of a pattern. -/
theorem matched_fragment : p.fragment.matched = p.through :=
  (glued_fragment hp).words_exit

/-- The words that return to the entry of a pattern's fragment are those computed for the pattern.
-/
theorem returned_fragment : p.fragment.returned = p.back :=
  (glued_fragment hp).words_entry

end Whole

/-! ## Where a pattern matches what it denotes -/

/-- A pattern and all patterns in it. -/
def subpatterns {ρ : Type} : Pattern ρ → List (Pattern ρ)
  | codes label => [codes label]
  | reference r => [reference r]
  | sequence p q => sequence p q :: (p.subpatterns ++ q.subpatterns)
  | choice p q => choice p q :: (p.subpatterns ++ q.subpatterns)
  | repeated p how => repeated p how :: p.subpatterns
  | complement p => complement p :: p.subpatterns

/-- Leaving out or repeating the operand matches nothing that it should not: what leads
back to the entry of the operand is matched anyway. -/
def Harmless : Pattern Fragment → Prop
  | repeated p .optional => p.back ≤ 1 + p.denotation
  | repeated p .zeroOrMore => p.back ≤ p.denotation∗
  | _ => True

/-- A pattern is one of its own subpatterns. -/
theorem self_mem_subpatterns {ρ : Type} (p : Pattern ρ) : p ∈ p.subpatterns := by
  cases p <;> exact List.mem_cons_self

/-- A bypass adds only the empty word iff what returns is denoted already. -/
theorem optional_eq_iff (hone : 1 ≤ r) : l + r = 1 + l ↔ r ≤ 1 + l := by
  constructor
  · intro heq
    exact heq ▸ le_add_self
  · intro hle
    apply le_antisymm
    · exact add_le le_add_self hle
    · exact add_le (hone.trans le_add_self) le_self_add

/-- A pattern and all patterns in it match what they denote exactly when leaving out and
repeating is harmless everywhere in it. -/
theorem forall_through_eq_iff (p : Pattern Fragment) :
    (∀ q ∈ p.subpatterns, q.through = q.denotation) ↔ ∀ q ∈ p.subpatterns, q.Harmless := by
  induction p with
  | codes label => simp [subpatterns, through, denotation, Harmless]
  | reference f => simp [subpatterns, through, denotation, Harmless]
  | sequence p q ihp ihq =>
    simp only [subpatterns, List.forall_mem_cons, List.forall_mem_append, ← ihp, ← ihq]
    refine and_congr_left fun ⟨hp, hq⟩ => iff_of_true ?_ trivial
    rw [through, denotation, hp p (self_mem_subpatterns p), hq q (self_mem_subpatterns q)]
  | choice p q ihp ihq =>
    simp only [subpatterns, List.forall_mem_cons, List.forall_mem_append, ← ihp, ← ihq]
    refine and_congr_left fun ⟨hp, hq⟩ => iff_of_true ?_ trivial
    rw [through, denotation, hp p (self_mem_subpatterns p), hq q (self_mem_subpatterns q)]
  | repeated p how ih =>
    simp only [subpatterns, List.forall_mem_cons, ← ih]
    refine and_congr_left fun hp => ?_
    have heq := hp p (self_mem_subpatterns p)
    cases how with
    | zeroOrMore =>
      rw [through, denotation, heq]
      exact Graph.kstar_add_eq_iff
    | oneOrMore =>
      rw [through, denotation, heq]
      exact iff_of_true rfl trivial
    | optional =>
      rw [through, denotation, heq]
      exact optional_eq_iff (one_le_back p)
  | complement p ih =>
    simp only [subpatterns, List.forall_mem_cons, ← ih]
    refine and_congr_left fun hp => iff_of_true ?_ trivial
    rw [through, denotation, hp p (self_mem_subpatterns p)]

end Pattern
end Munch

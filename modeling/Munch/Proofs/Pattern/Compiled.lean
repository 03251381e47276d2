import Munch.Definition
import Munch.Proofs.Pattern.Reader

/-!
# Compiled patterns

A compiled pattern is compiled against a table of compiled patterns, so every reference
in it stands for a fragment, and the languages of patterns are those of their fragments.

Main results:

- Theorem {lit}`Compiled.proper`: compiled patterns are fragments.
- Theorem {lit}`over_proper_of_read`: so are the references of what is read next.
- Theorem {lit}`Pattern.matches_iff`: a fragment matches one language only.
-/

open scoped Computability

namespace Munch

/-- A fragment that was compiled from a pattern, against a table of such fragments. -/
inductive Compiled : Fragment → Prop where
  | intro {table : FragmentTable} {pattern : String} {f : Fragment}
      (htable : ∀ entry ∈ table, Compiled entry.2)
      (hcompile : compilePattern table pattern = .ok f) :
      Compiled f

/-- A text compiles only by being read as a pattern, whose fragment is the result. -/
theorem exists_pattern_of_compilePattern {table : FragmentTable} {pattern : String} {f : Fragment}
    (hcompile : compilePattern table pattern = .ok f) :
    ∃ p, Pattern.read table.lookup pattern = .ok p ∧ f = p.fragment := by
  rw [compilePattern] at hcompile
  cases hread : Pattern.read table.lookup pattern with
  | error e =>
    rw [hread] at hcompile
    cases hcompile
  | ok p =>
    rw [hread] at hcompile
    exact ⟨p, rfl, (Except.ok.inj hcompile).symm⟩

/-- A name stands for the fragment of some entry. -/
theorem exists_entry_of_lookup {table : FragmentTable} {name : String} {f : Fragment}
    (hlookup : table.lookup name = some f) : ∃ entry ∈ table, entry.2 = f := by
  obtain ⟨entry, hfind, hf⟩ := Option.map_eq_some_iff.mp hlookup
  exact ⟨entry, List.mem_of_find?_eq_some hfind, hf⟩

/-- What holds of the fragments of a table holds of those that names resolve to. -/
theorem resolves_lookup {table : FragmentTable} {P : Fragment → Prop}
    (htable : ∀ entry ∈ table, P entry.2) : Pattern.Resolves P table.lookup := by
  intro name f hlookup
  obtain ⟨entry, hentry, rfl⟩ := exists_entry_of_lookup hlookup
  exact htable entry hentry

/-- Compiled patterns are fragments. -/
theorem Compiled.proper {f : Fragment} (hcompiled : Compiled f) : f.Proper := by
  induction hcompiled with
  | @intro table pattern f _ hcompile ih =>
    obtain ⟨p, hread, rfl⟩ := exists_pattern_of_compilePattern hcompile
    exact Pattern.proper_fragment (Pattern.over_read (resolves_lookup ih) hread)

section Table

variable {table : FragmentTable} (htable : ∀ entry ∈ table, Compiled entry.2)
include htable

/-- The references of a pattern that is read against compiled ones are fragments. -/
theorem over_proper_of_read {pattern : String} {p : Pattern Fragment}
    (hread : Pattern.read table.lookup pattern = .ok p) : p.Over Fragment.Proper :=
  Pattern.over_read (resolves_lookup fun entry hentry => (htable entry hentry).proper) hread

end Table

namespace Pattern

variable {p q : Pattern Fragment}

/-- What holds over a pattern holds over its subpatterns. -/
theorem Over.of_mem_subpatterns {P : Fragment → Prop} (hp : p.Over P) (hq : q ∈ p.subpatterns) :
    q.Over P := by
  induction p with
  | codes label => exact List.mem_singleton.mp hq ▸ hp
  | reference r => exact List.mem_singleton.mp hq ▸ hp
  | sequence p₁ p₂ ih₁ ih₂ =>
    rcases List.mem_cons.mp hq with rfl | hq
    · exact hp
    · rcases List.mem_append.mp hq with hq | hq
      · exact ih₁ hp.1 hq
      · exact ih₂ hp.2 hq
  | choice p₁ p₂ ih₁ ih₂ =>
    rcases List.mem_cons.mp hq with rfl | hq
    · exact hp
    · rcases List.mem_append.mp hq with hq | hq
      · exact ih₁ hp.1 hq
      · exact ih₂ hp.2 hq
  | repeated p₁ how ih =>
    rcases List.mem_cons.mp hq with rfl | hq
    · exact hp
    · exact ih hp hq
  | complement p₁ ih =>
    rcases List.mem_cons.mp hq with rfl | hq
    · exact hp
    · exact ih hp hq

/-- The fragment of a pattern matches a language: its words lead from the entry to the
exit. -/
def Matches (p : Pattern Fragment) (l : Language Int) : Prop :=
  ∀ w, p.fragment.graph.Path p.fragment.ends.entry w p.fragment.ends.exit ↔ w ∈ l

/-- The words that lead through a fragment are the words of one language only. -/
theorem matches_iff (hp : p.Over Fragment.Proper) {l : Language Int} :
    p.Matches l ↔ p.through = l := by
  have hwords : ∀ w, p.fragment.graph.Path p.fragment.ends.entry w p.fragment.ends.exit ↔
      w ∈ p.through := by
    intro w
    rw [← matched_fragment hp]
    exact Iff.rfl
  constructor
  · intro hmatches
    ext w
    rw [← hwords w, hmatches w]
  · rintro rfl
    exact hwords

end Pattern

/-- A compiled pattern matches what its automaton lets through, and it and all patterns
in it match what they denote exactly when leaving out and repeating is harmless
everywhere in it. -/
theorem compilePattern_matches {table : FragmentTable} (htable : ∀ entry ∈ table, Compiled entry.2)
    {pattern : String} {f : Fragment} (hcompile : compilePattern table pattern = .ok f) :
    ∃ p, Pattern.read table.lookup pattern = .ok p ∧ f = p.fragment ∧
      (∀ w, f.graph.Path f.ends.entry w f.ends.exit ↔ w ∈ p.through) ∧
      (∀ w, f.graph.Path f.ends.entry w f.ends.entry ↔ w ∈ p.back) ∧
      ((∀ q ∈ p.subpatterns, q.Matches q.denotation) ↔ ∀ q ∈ p.subpatterns, q.Harmless) := by
  obtain ⟨p, hread, rfl⟩ := exists_pattern_of_compilePattern hcompile
  have hp := over_proper_of_read htable hread
  refine ⟨p, hread, rfl, (Pattern.matches_iff hp).mpr rfl, fun w => ?_, ?_⟩
  · rw [← Pattern.returned_fragment hp]
    exact Iff.rfl
  · rw [← Pattern.forall_through_eq_iff]
    refine forall₂_congr fun q hq => ?_
    exact Pattern.matches_iff (hp.of_mem_subpatterns hq)

/-! ## Two patterns -/

/-- The text `(ab)*` as a pattern. -/
def pairs : Pattern Fragment :=
  .repeated (.sequence (.codes (CodeSet.single 97)) (.codes (CodeSet.single 98))) .zeroOrMore

/-- The text of the pattern `pairs`. -/
theorem read_pairs : Pattern.read (FragmentTable.lookup []) "(ab)*" = .ok pairs := by
  cbv

/-- No operand in `pairs` leads back by anything it does not denote. -/
theorem harmless_pairs : ∀ q ∈ pairs.subpatterns, q.Harmless := by
  simp only [pairs, Pattern.subpatterns, List.cons_append, List.nil_append, List.forall_mem_cons]
  refine ⟨?_, trivial, trivial, trivial, ?_⟩
  · exact one_le_kstar
  · intro q hq
    cases hq

/-- The fragment compiled for `(ab)*` matches the repetitions of `ab`. -/
theorem compilePattern_pairs :
    ∃ f, compilePattern [] "(ab)*" = .ok f ∧
      ∀ w, f.graph.Path f.ends.entry w f.ends.exit ↔ w ∈ pairs.denotation := by
  have hcompile : compilePattern [] "(ab)*" = .ok pairs.fragment := by
    rw [compilePattern, read_pairs]
    rfl
  obtain ⟨p, hread, -, -, -, hiff⟩ :=
    compilePattern_matches (fun entry hentry => absurd hentry List.not_mem_nil) hcompile
  obtain rfl : pairs = p := Except.ok.inj (read_pairs.symm.trans hread)
  exact ⟨pairs.fragment, hcompile, hiff.mpr harmless_pairs pairs pairs.self_mem_subpatterns⟩

/-- The text `(a+b)?` as a pattern. -/
def optionalRun : Pattern Fragment :=
  .repeated (.sequence (.repeated (.codes (CodeSet.single 97)) .oneOrMore)
    (.codes (CodeSet.single 98))) .optional

/-- The text of the pattern `optionalRun`. -/
theorem read_optionalRun : Pattern.read (FragmentTable.lookup []) "(a+b)?" = .ok optionalRun := by
  cbv

/-- The operand `a+b` leads back to its entry on the letter `a`, so leaving the operand
out matches that letter, which the pattern does not denote. -/
theorem compilePattern_optionalRun :
    ∃ f, compilePattern [] "(a+b)?" = .ok f ∧
      f.graph.Path f.ends.entry [97] f.ends.exit ∧ [97] ∉ optionalRun.denotation := by
  have hcompile : compilePattern [] "(a+b)?" = .ok optionalRun.fragment := by
    rw [compilePattern, read_optionalRun]
    rfl
  have hp := over_proper_of_read (fun entry hentry => absurd hentry List.not_mem_nil)
    read_optionalRun
  have hletter : [97] ∈ Pattern.oneCode (CodeSet.single 97) := ⟨97, rfl, CodeSet.mem_single.mpr rfl⟩
  refine ⟨optionalRun.fragment, hcompile, ((Pattern.matches_iff hp).mpr rfl [97]).mpr ?_, ?_⟩
  · have hrun : Pattern.oneCode (CodeSet.single 97) ≤ (Pattern.oneCode (CodeSet.single 97))∗ :=
      le_kstar
    exact Or.inr (Language.append_mem_mul (hrun hletter) Language.nil_mem_one)
  · rintro (hnil | hrun)
    · cases hnil
    · obtain ⟨u, hu, v, ⟨c, rfl, hc⟩, heq⟩ := Language.mem_mul.mp hrun
      rw [CodeSet.mem_single] at hc
      subst hc
      have hlast := congrArg List.getLast? heq
      simp at hlast

end Munch

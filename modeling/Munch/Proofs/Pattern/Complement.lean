import Munch.Proofs.Pattern.Compiled

/-!
# Complements in patterns

The operand of a complement is a part of the graph that is being assembled.  The part put
behind it for the complement lets through the words that leave the operand: beginnings of
its words that are not words of it, and such beginnings with one character after which no
word of it can be reached.

Main results:

- Theorem {lit}`leavings_of_beginnings_eq` and theorem {lit}`mem_leavings_zero_iff`: the two
  extremes, where every beginning is a word and where there are no words.
- Theorem {lit}`Fragment.Proper.words_complement`: the words through the complement of a
  part.
- Theorem {lit}`Pattern.assemble_complement_leavings`: the words through a complement in a
  pattern that is read.
-/

namespace Munch

/-- Nothing leaves a language that holds all beginnings of its words. -/
theorem leavings_of_beginnings_eq {l : Language Int} (hl : beginnings l = l) : leavings l = 0 := by
  ext w
  refine iff_of_false ?_ (Language.notMem_zero w)
  rintro (⟨hbegins, hnot⟩ | ⟨u, c, -, ⟨hbegins, hnot⟩, -⟩)
  · exact hnot (hl ▸ hbegins)
  · exact hnot (hl ▸ hbegins)

/-- The empty language is left at once, without input or on any character. -/
theorem mem_leavings_zero_iff {w : List Int} :
    w ∈ leavings 0 ↔ w = [] ∨ ∃ c ∈ CodeSet.chars, w = [c] := by
  have hbegins : ∀ u, u ∈ beginnings 0 ↔ u = [] := by
    intro u
    rw [mem_beginnings]
    exact or_iff_left fun ⟨v, hv⟩ => Language.notMem_zero _ hv
  simp only [mem_leavings, hbegins, Language.notMem_zero, not_false_eq_true, and_true]
  constructor
  · rintro (hnil | ⟨u, c, rfl, rfl, hc, -⟩)
    · exact Or.inl hnil
    · exact Or.inr ⟨c, hc, rfl⟩
  · rintro (hnil | ⟨c, hc, rfl⟩)
    · exact Or.inl hnil
    · exact Or.inr ⟨[], c, rfl, rfl, hc, List.cons_ne_nil c []⟩

/-- The words through the complement of a part, put behind the graph of the part. -/
theorem Fragment.Proper.words_complement {h : Graph} {a : Ends}
    (hproper : Fragment.Proper ⟨h, a⟩) :
    ((h.prefixComplement a).spliceInto h).1.words ((h.prefixComplement a).spliceInto h).2.entry
        ((h.prefixComplement a).spliceInto h).2.exit =
      leavings (h.words a.entry a.exit) := by
  have hglued : Glued Graph.empty h a (h.words a.entry a.exit) (h.words a.entry a.entry) :=
    { size_le := Nat.zero_le _
      edges_old := fun i hi => absurd hi (Nat.not_lt_zero i)
      isPart := fun _ _ _ _ => Nat.zero_le _
      plain := hproper.plain
      le_entry := Nat.zero_le _
      le_exit := Nat.zero_le _
      entry_lt := hproper.entry_lt
      exit_lt := hproper.exit_lt
      entry_ne_exit := hproper.entry_ne_exit
      edges_exit := hproper.edges_exit
      words_exit := rfl
      words_entry := rfl }
  exact hglued.complement.words_exit

namespace Pattern

/-- The part assembled for a pattern is a fragment. -/
theorem proper_assemble {p : Pattern Fragment} (hp : p.Over Fragment.Proper) {g : Graph}
    (hplain : g.Plain) : Fragment.Proper ⟨(p.assemble g).1, (p.assemble g).2⟩ :=
  Fragment.proper_of_glued (glued_assemble hp hplain)

theorem Over.of_complement_mem_subpatterns {P : Fragment → Prop} {p q : Pattern Fragment}
    (hp : p.Over P) (hq : complement q ∈ p.subpatterns) : q.Over P :=
  hp.of_mem_subpatterns (q := complement q) hq

section Operand

variable {table : FragmentTable} {text : String} {p q : Pattern Fragment} {g h k : Graph}
  {a b : Ends} {l : Language Int}

/-- In a pattern that is read against compiled ones, a complement lets through exactly the
words that leave its operand.  Those are no words when the language of the operand holds
all beginnings of its words, and the empty word and all single characters when it has no
words. -/
theorem assemble_complement_leavings (htable : ∀ entry ∈ table, Compiled entry.2)
    (hread : Pattern.read table.lookup text = .ok p) (hq : complement q ∈ p.subpatterns)
    (hplain : g.Plain) (hoperand : q.assemble g = (h, a))
    (hl : ∀ w, w ∈ l ↔ h.Path a.entry w a.exit)
    (hcomplement : (h.prefixComplement a).spliceInto h = (k, b)) :
    (complement q).assemble g = (k, b) ∧
      (∀ w ∈ l, ∀ c ∈ w, c ∈ CodeSet.chars) ∧
      (∀ w, k.Path b.entry w b.exit ↔
        (w ∈ beginnings l ∧ w ∉ l) ∨
          ∃ u c, w = u ++ [c] ∧ (u ∈ beginnings l ∧ u ∉ l) ∧ c ∈ CodeSet.chars ∧
            w ∉ beginnings l) ∧
      (beginnings l = l → ∀ w, ¬k.Path b.entry w b.exit) ∧
      (l = 0 → ∀ w, k.Path b.entry w b.exit ↔ w = [] ∨ ∃ c ∈ CodeSet.chars, w = [c]) := by
  have hp := (over_proper_of_read htable hread).of_complement_mem_subpatterns hq
  have hproper : Fragment.Proper ⟨h, a⟩ := by
    have hpart := proper_assemble hp hplain
    rwa [hoperand] at hpart
  obtain rfl : h.words a.entry a.exit = l := by
    ext w
    exact (hl w).symm
  have hwords : ∀ w, k.Path b.entry w b.exit ↔ w ∈ leavings (h.words a.entry a.exit) := by
    intro w
    rw [← hproper.words_complement, hcomplement]
    exact Iff.rfl
  refine ⟨?_, ?_, hwords, ?_, ?_⟩
  · rw [assemble, hoperand]
    exact hcomplement
  · intro w hw
    exact hproper.mem_chars_of_mem_matched hw
  · intro hbegins w hpath
    rw [hwords, leavings_of_beginnings_eq hbegins] at hpath
    exact Language.notMem_zero w hpath
  · intro hzero w
    rw [hwords, hzero, mem_leavings_zero_iff]

end Operand

/-- The letters a and b in a row. -/
def letterPair : Pattern Fragment :=
  .sequence (.codes (CodeSet.single 97)) (.codes (CodeSet.single 98))

/-- The text `x^(ab)` as a pattern. -/
def stopsPair : Pattern Fragment :=
  .sequence (.codes (CodeSet.single 120)) (.complement letterPair)

theorem read_stopsPair : Pattern.read (FragmentTable.lookup []) "x^(ab)" = .ok stopsPair := by
  cbv

theorem through_letterPair : letterPair.through = {[97, 98]} := by
  ext w
  simp only [letterPair, through, Language.mem_mul, mem_oneCode, CodeSet.mem_single]
  constructor
  · rintro ⟨u, ⟨c, rfl, rfl⟩, v, ⟨d, rfl, rfl⟩, rfl⟩
    exact rfl
  · rintro rfl
    exact ⟨[97], ⟨97, rfl, rfl⟩, [98], ⟨98, rfl, rfl⟩, rfl⟩

/-- Behind the letter x the complement of `ab` lets through the beginning `a`, and `ac`,
which is no beginning any more, but not `ab`. -/
theorem assemble_complement_stopsPair :
    ∃ k b, (complement letterPair).assemble ((codes (CodeSet.single 120)).assemble Graph.empty).1 =
        (k, b) ∧
      k.Path b.entry [97] b.exit ∧ k.Path b.entry [97, 99] b.exit ∧
      ¬k.Path b.entry [97, 98] b.exit := by
  have hempty : ∀ entry ∈ ([] : FragmentTable), Compiled entry.2 :=
    fun entry hentry => absurd hentry List.not_mem_nil
  have hstops := over_proper_of_read hempty read_stopsPair
  have hplain := (glued_assemble hstops.1 Graph.plain_empty).plain
  have hpart := glued_assemble (p := letterPair) hstops.2 hplain
  have hl : ∀ w, w ∈ ({[97, 98]} : Language Int) ↔ _ := fun w => by
    rw [← through_letterPair, ← hpart.words_exit, Graph.mem_words]
  obtain ⟨hassemble, -, hpaths, -, -⟩ := assemble_complement_leavings (q := letterPair) hempty
    read_stopsPair (by simp [stopsPair, subpatterns]) hplain rfl hl rfl
  have hbegins : ∀ u, u ∈ beginnings ({[97, 98]} : Language Int) ↔
      u = [] ∨ ∃ v, u ++ v = [97, 98] := fun u => Iff.rfl
  have hmem : ∀ u, u ∈ ({[97, 98]} : Language Int) ↔ u = [97, 98] := fun u => Iff.rfl
  refine ⟨_, _, hassemble, (hpaths _).mpr (Or.inl ⟨?_, ?_⟩), (hpaths _).mpr (Or.inr ?_), ?_⟩
  · exact (hbegins _).mpr (Or.inr ⟨[98], rfl⟩)
  · simp [hmem]
  · refine ⟨[97], 99, rfl, ⟨(hbegins _).mpr (Or.inr ⟨[98], rfl⟩), by simp [hmem]⟩, by decide, ?_⟩
    simp [hbegins]
  · rw [hpaths]
    rintro (⟨-, hnot⟩ | ⟨u, c, hu, -, -, hnot⟩)
    · exact hnot ((hmem _).mpr rfl)
    · exact hnot ((hbegins _).mpr (Or.inr ⟨[], rfl⟩))

end Pattern
end Munch

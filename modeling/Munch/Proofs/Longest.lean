import Munch.Proofs.Graph.Words
import Munch.Reference

/-!
# Longest matches

A text can be searched for its longest match along an automaton or by following sets of
states.  Either way the last find is remembered, and the best of several finds is the
longest one with the largest token.

Main results:

- Theorem {lit}`Latest.cons`: the last find on a longer way.
- Theorem {lit}`BestOf.unique`: there is at most one best candidate.
- Theorem {lit}`BestOf.better`: comparing two candidates keeps the best one.
-/

namespace Munch

/-! ## Texts as words -/

/-- The codes of the characters of a text. -/
def codes (s : List Char) : List Int := s.map Code.ofChar

@[simp]
theorem codes_nil : codes [] = [] :=
  rfl

@[simp]
theorem codes_cons (c : Char) (s : List Char) : codes (c :: s) = Code.ofChar c :: codes s :=
  rfl

/-- Code points are character codes. -/
theorem Code.ofChar_mem_chars (c : Char) : Code.ofChar c ∈ CodeSet.chars := by
  have hvalid := c.valid
  simp only [UInt32.isValidChar, Nat.isValidChar] at hvalid
  have hlt : c.toNat < 0x110000 := by
    change c.val.toNat < 0x110000
    omega
  rw [CodeSet.mem_chars]
  unfold Code.ofChar Code.charLimit
  omega

/-! ## The last find -/

/-- What is remembered at the end of a way when something may be found at each of its
places: the last find, or what was there before if nothing is found. -/
def Latest {α : Type} (found : Nat → α → Prop) (before : Option α) (result : Option α) : Prop :=
  (result = before ∧ ∀ n a, ¬found n a) ∨
    ∃ n a, result = some a ∧ found n a ∧ ∀ m b, found m b → m ≤ n

namespace Latest

variable {α : Type} {found rest : Nat → α → Prop} {before after result : Option α}

/-- Nothing is found on a way without places. -/
theorem of_forall_not (hnone : ∀ n a, ¬found n a) : Latest found before before :=
  Or.inl ⟨rfl, hnone⟩

/-- What is remembered after the first place goes before the finds at the others. -/
theorem cons (hrest : ∀ n a, found (n + 1) a ↔ rest n a)
    (hfirst : Latest (fun n a => n = 0 ∧ found 0 a) before after)
    (hlatest : Latest rest after result) : Latest found before result := by
  rcases hlatest with ⟨rfl, hnone⟩ | ⟨n, a, rfl, ha, hlast⟩
  · have hzero : ∀ n a, found n a → n = 0 := by
      intro n a ha
      cases n with
      | zero => rfl
      | succ n => exact absurd ((hrest n a).mp ha) (hnone n a)
    rcases hfirst with ⟨rfl, hfirst⟩ | ⟨n, a, rfl, ⟨rfl, ha⟩, -⟩
    · left
      refine ⟨rfl, fun n a ha => ?_⟩
      obtain rfl := hzero n a ha
      exact hfirst 0 a ⟨rfl, ha⟩
    · right
      exact ⟨0, a, rfl, ha, fun m b hb => Nat.le_of_eq (hzero m b hb)⟩
  · right
    refine ⟨n + 1, a, rfl, (hrest n a).mpr ha, fun m b hb => ?_⟩
    cases m with
    | zero => exact Nat.zero_le _
    | succ m => exact Nat.succ_le_succ (hlast m b ((hrest m b).mp hb))

/-- A find at the only place is remembered. -/
theorem of_found {a : α} (ha : found 0 a) (hzero : ∀ n b, found n b → n = 0) :
    Latest found before (some a) :=
  Or.inr ⟨0, a, rfl, ha, fun m b hb => Nat.le_of_eq (hzero m b hb)⟩

end Latest

namespace Reference

/-! ## The best candidate -/

/-- Candidates at the front of a text: tokens that match some beginning of it. -/
def Fits (tokens : Int → Language Int) (s : List Char) (c : Candidate) : Prop :=
  0 < c.length ∧ c.length ≤ s.length ∧ codes (s.take c.length) ∈ tokens c.id

/-- No candidate is longer, and none of the same length has a larger token. -/
structure IsBest (fits : Candidate → Prop) (best : Candidate) : Prop where
  holds : fits best
  le : ∀ c, fits c → c.length < best.length ∨ c.length = best.length ∧ c.id ≤ best.id

/-- The best candidate if there is one. -/
def BestOf (fits : Candidate → Prop) : Option Candidate → Prop
  | none => ∀ c, ¬fits c
  | some best => IsBest fits best

variable {fits more : Candidate → Prop} {a b : Candidate}

theorem IsBest.unique (ha : IsBest fits a) (hb : IsBest fits b) : a = b := by
  have hab := hb.le a ha.holds
  have hba := ha.le b hb.holds
  obtain ⟨id, length⟩ := a
  obtain ⟨id', length'⟩ := b
  simp only [Candidate.mk.injEq]
  simp only at hab hba
  omega

/-- There is at most one best candidate. -/
theorem BestOf.unique {best other : Option Candidate} (hbest : BestOf fits best)
    (hother : BestOf fits other) : best = other := by
  cases best with
  | none =>
    cases other with
    | none => rfl
    | some b => exact absurd hother.holds (hbest b)
  | some a =>
    cases other with
    | none => exact absurd hbest.holds (hother a)
    | some b => rw [IsBest.unique hbest hother]

/-- Comparing the best of some candidates with the best of others gives the best of
all. -/
theorem BestOf.better {best : Option Candidate} (hbest : BestOf fits best)
    (hfound : IsBest more a) :
    BestOf (fun c => fits c ∨ more c) (some (Reference.better best a)) := by
  cases best with
  | none =>
    refine ⟨Or.inr hfound.holds, fun c hc => ?_⟩
    rcases hc with hc | hc
    · exact absurd hc (hbest c)
    · exact hfound.le c hc
  | some b =>
    rw [Reference.better]
    split
    · rename_i hlt
      refine ⟨Or.inr hfound.holds, fun c hc => ?_⟩
      rcases hc with hc | hc
      · have hle := hbest.le c hc
        omega
      · exact hfound.le c hc
    · rename_i hge
      refine ⟨Or.inl hbest.holds, fun c hc => ?_⟩
      rcases hc with hc | hc
      · exact hbest.le c hc
      · have hle := hfound.le c hc
        omega

/-- Only the candidates count. -/
theorem BestOf.congr {best : Option Candidate} (hiff : ∀ c, fits c ↔ more c) :
    BestOf fits best ↔ BestOf more best := by
  rw [funext fun c => propext (hiff c)]

end Reference
end Munch

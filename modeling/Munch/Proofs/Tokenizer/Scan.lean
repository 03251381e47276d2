import Munch.Proofs.Automaton.Walk
import Munch.Tokenizer.Scan

/-!
# What a scan finds

A scan follows its automaton as far as there are steps and remembers the last state that
recognizes a token.  That gives the longest match, with the largest of its tokens.

Main results:

- Theorem {lit}`Automaton.latest_scanFrom`: what is remembered from a state on.
- Theorem {lit}`Automaton.bestOf_scan`: the match of a scan is the best candidate.
-/

namespace Munch
namespace Automaton

open Munch.Reference

variable {a : Automaton} {i : Nat} {c : Char} {id : Int} {s : List Char}

/-- The words that an automaton accepts with the marker of a token behind them. -/
def tokenWords (a : Automaton) (id : Int) : Language Int :=
  {w | a.graph.Accepts 0 (w ++ [Code.marker id])}

/-- The places of a walk at which a match is found. -/
def Found (a : Automaton) (i offset : Nat) (s : List Char) (n : Nat) (m : Match) : Prop :=
  n ≤ s.length ∧ ∃ j, a.walk i (s.take n) = some j ∧ a.accepting j = some m.id ∧
    m.length = offset + n

theorem found_zero_iff {offset : Nat} {m : Match} :
    a.Found i offset s 0 m ↔ a.accepting i = some m.id ∧ m.length = offset := by
  simp only [Found, Nat.zero_le, true_and, List.take_zero, walk_nil, Option.some.injEq,
    exists_eq_left', Nat.add_zero]

theorem found_succ_iff {offset j n : Nat} {m : Match} (hstep : a.step i c = some j) :
    a.Found i offset (c :: s) (n + 1) m ↔ a.Found j (offset + 1) s n m := by
  have hplace : offset + (n + 1) = offset + 1 + n := by omega
  simp only [Found, List.length_cons, Nat.add_le_add_iff_right, List.take_succ_cons, walk_cons,
    hstep, Option.bind_some, hplace]

/-- The token of a state is remembered when nothing is found behind it. -/
theorem latest_bestAt {found : Nat → Match → Prop} {offset : Nat}
    (hzero : ∀ m, found 0 m ↔ a.accepting i = some m.id ∧ m.length = offset)
    (honly : ∀ n m, found n m → n = 0) (best : Option Match) :
    Latest found best (bestAt a i offset best) := by
  unfold bestAt
  split
  · rename_i id haccepting
    exact Latest.of_found ((hzero ⟨id, offset⟩).mpr ⟨haccepting, rfl⟩) honly
  · rename_i haccepting
    refine Latest.of_forall_not fun n m hm => ?_
    obtain rfl := honly n m hm
    have hsome := ((hzero m).mp hm).1
    rw [haccepting] at hsome
    cases hsome

/-- From a state on, the longest match is remembered. -/
theorem latest_scanFrom (a : Automaton) (i offset : Nat) (best : Option Match) (s : List Char) :
    ∃ result, scanFrom a i offset best (s.map CharEvent.char) = .matched result ∧
      Latest (a.Found i offset s) best result := by
  induction s generalizing i offset best with
  | nil =>
    refine ⟨_, rfl, latest_bestAt (fun m => found_zero_iff) (fun n m hm => ?_) best⟩
    exact Nat.le_zero.mp hm.1
  | cons c s ih =>
    rw [List.map_cons, scanFrom]
    cases hstep : a.step i c with
    | none =>
      refine ⟨_, rfl, latest_bestAt (fun m => found_zero_iff) (fun n m hm => ?_) best⟩
      cases n with
      | zero => rfl
      | succ n =>
        obtain ⟨-, j, hwalk, -⟩ := hm
        rw [List.take_succ_cons, walk_cons, hstep] at hwalk
        cases hwalk
    | some j =>
      obtain ⟨result, hresult, hlatest⟩ := ih j (offset + 1) (bestAt a i offset best)
      refine ⟨result, hresult, Latest.cons (fun n m => found_succ_iff hstep) ?_ hlatest⟩
      refine latest_bestAt (fun m => ?_) (fun n m hm => hm.1) best
      rw [found_zero_iff]
      exact and_iff_right rfl

/-- The candidates at the front of a text are the tokens marked along a walk. -/
theorem fits_tokenWords_iff {m : Candidate} :
    Fits a.tokenWords s m ↔ 0 < m.length ∧ m.length ≤ s.length ∧
      ∃ j, a.walk 0 (s.take m.length) = some j ∧ a.Marks j m.id :=
  and_congr_right fun _ => and_congr_right fun _ => accepts_marker_iff

/-- Where a token is marked a match is found. -/
theorem exists_found_of_fits {m : Candidate} (hfits : Fits a.tokenWords s m) :
    ∃ best, a.Found 0 0 s m.length best := by
  obtain ⟨-, hle, j, hwalk, hmarks⟩ := fits_tokenWords_iff.mp hfits
  cases haccepting : a.accepting j with
  | none => exact absurd hmarks (accepting_eq_none_iff.mp haccepting m.id)
  | some id => exact ⟨⟨id, m.length⟩, hle, j, hwalk, haccepting, (Nat.zero_add _).symm⟩

/-- In an automaton whose start marks nothing, a scan finds the best candidate. -/
theorem bestOf_scan (hempty : ∀ id, ¬a.Marks 0 id) (s : List Char) :
    ∃ best, scan a (s.map CharEvent.char) = .matched best ∧
      BestOf (Fits a.tokenWords s) (best.map fun m => ⟨m.id, m.length⟩) := by
  obtain ⟨result, hresult, hlatest⟩ := a.latest_scanFrom 0 0 none s
  refine ⟨result, hresult, ?_⟩
  rcases hlatest with ⟨rfl, hnone⟩ | ⟨n, m, rfl, ⟨hle, j, hwalk, haccepting, hlength⟩, hlast⟩
  · intro c hfits
    obtain ⟨m, hfound⟩ := exists_found_of_fits hfits
    exact hnone _ m hfound
  · obtain ⟨hmarks, hlargest⟩ := accepting_eq_some haccepting
    rw [Nat.zero_add] at hlength
    -- A match of no characters would be marked at the start.
    have hpos : 0 < n := by
      refine Nat.pos_of_ne_zero fun hzero => ?_
      subst hzero
      rw [List.take_zero, walk_nil, Option.some.injEq] at hwalk
      exact hempty m.id (hwalk ▸ hmarks)
    subst hlength
    refine ⟨fits_tokenWords_iff.mpr ⟨hpos, hle, j, hwalk, hmarks⟩, fun c hfits => ?_⟩
    obtain ⟨best, hfound⟩ := exists_found_of_fits hfits
    rcases Nat.lt_or_eq_of_le (hlast _ best hfound) with hlt | heq
    · exact Or.inl hlt
    · obtain ⟨-, -, k, hwalk', hmarks'⟩ := fits_tokenWords_iff.mp hfits
      rw [heq, hwalk, Option.some.injEq] at hwalk'
      exact Or.inr ⟨heq, hlargest c.id (hwalk' ▸ hmarks')⟩

end Automaton
end Munch

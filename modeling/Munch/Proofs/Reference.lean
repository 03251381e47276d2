import Munch.Proofs.Fragment.Complement
import Munch.Proofs.Longest

/-!
# What simulation finds

Following the sets of states that a fragment can be in finds the longest beginning of a
text that leads through the fragment.  Trying all definitions finds the best candidate.

Main results:

- Theorem {lit}`Fragment.latest_longestFrom`: what is remembered from a set of states on.
- Theorem {lit}`Fragment.longestMatch_spec`: one fragment gives the longest beginning that
  leads through it, whatever its labels and silent edges are.
- Theorem {lit}`Fragment.Proper.bestOf_longestMatch`: one definition gives the longest
  beginning that its fragment matches.
- Theorem {lit}`Reference.bestOf_foldl`: all definitions give the best candidate.
-/

namespace Munch

namespace Graph

variable {g : Graph} {states : List Nat} {code : Int} {i j : Nat}

theorem mem_targetsOn_iff :
    j ∈ g.targetsOn states code ↔ ∃ i ∈ states, ∃ e ∈ g.edges i, code ∈ e.label ∧ e.target = j := by
  simp only [targetsOn, List.mem_flatMap, List.mem_map, List.mem_filter, CodeSet.mem_iff, and_assoc]

end Graph

namespace Fragment

open Munch.Graph

/-- The states to which a word leads from the entry.  An entry that is no state leads nowhere but to
itself. -/
def Reaches (f : Fragment) (u : List Int) (states : List Nat) : Prop :=
  ∀ i < f.graph.size, i ∈ states ↔ f.graph.Path f.ends.entry u i

section Simulation

variable {f : Fragment} (hclosed : f.graph.Closed) {u : List Int} {states : List Nat}
include hclosed

/-- Before anything is read, a fragment is in the states around its entry. -/
theorem reaches_entry : f.Reaches [] (f.graph.silentClosure [f.ends.entry]) := by
  intro i hi
  by_cases hentry : f.ends.entry < f.graph.size
  · have hroots : ∀ r ∈ [f.ends.entry], r < f.graph.size := by
      intro r hr
      rwa [List.mem_singleton.mp hr]
    rw [mem_silentClosure_iff hclosed hroots]
    simp only [List.mem_singleton, exists_eq_left]
  · refine iff_of_false (fun hmem => ?_) fun hpath => ?_
    · obtain ⟨r, hr, hpath⟩ := exists_path_of_mem_silentClosure hmem
      rw [List.mem_singleton.mp hr] at hpath
      exact hentry (lt_size_of_path hpath hi)
    · exact hentry (lt_size_of_path hpath hi)

/-- Reading one character leads on to the closure of the targets. -/
theorem mem_silentClosure_targetsOn_iff (hstates : f.Reaches u states) {code : Int}
    (hcode : code ≠ Code.silent) {i : Nat} :
    i ∈ f.graph.silentClosure (f.graph.targetsOn states code) ↔
      f.graph.Path f.ends.entry (u ++ [code]) i := by
  have hroots : ∀ r ∈ f.graph.targetsOn states code, r < f.graph.size := by
    intro r hr
    obtain ⟨i, -, e, he, -, rfl⟩ := mem_targetsOn_iff.mp hr
    exact hclosed i e he
  rw [mem_silentClosure_iff hclosed hroots, path_append_iff]
  constructor
  · rintro ⟨r, hr, hpath⟩
    obtain ⟨j, hj, e, he, hlabel, rfl⟩ := mem_targetsOn_iff.mp hr
    exact ⟨j, (hstates j (lt_size_of_mem_edges he)).mp hj, Path.read he hlabel hcode hpath⟩
  · rintro ⟨j, hfirst, hsecond⟩
    obtain ⟨k, e, he, hnil, hlabel, -, hrest⟩ := hsecond.exists_edge
    have hk := (hstates k (lt_size_of_mem_edges he)).mpr (hfirst.append_silent hnil)
    exact ⟨e.target, mem_targetsOn_iff.mpr ⟨k, hk, e, he, hlabel, rfl⟩, hrest⟩

omit hclosed in
/-- Without targets no longer word leads through the fragment. -/
theorem not_mem_matched_of_targetsOn (hstates : f.Reaches u states) {code : Int}
    (htargets : (f.graph.targetsOn states code).isEmpty = true) (v : List Int) :
    u ++ code :: v ∉ f.matched := by
  intro hmatched
  have hsplit : u ++ code :: v = (u ++ [code]) ++ v := by simp
  rw [hsplit] at hmatched
  obtain ⟨i, hfirst, -⟩ := path_append_iff.mp hmatched
  obtain ⟨k, hk, hlast⟩ := path_append_iff.mp hfirst
  obtain ⟨j, e, he, hnil, hlabel, -⟩ := hlast.exists_edge
  have hj := (hstates j (lt_size_of_mem_edges he)).mpr (hk.append_silent hnil)
  have hmem : e.target ∈ f.graph.targetsOn states code :=
    mem_targetsOn_iff.mpr ⟨j, hj, e, he, hlabel, rfl⟩
  rw [List.isEmpty_iff.mp htargets] at hmem
  cases hmem

/-- From the states after a word on, the length of the longest match is remembered. -/
theorem latest_longestFrom (hstates : f.Reaches u states) (length : Nat) (best : Option Nat)
    (s : List Char) :
    Latest (fun n total => n < s.length ∧ u ++ codes (s.take (n + 1)) ∈ f.matched ∧
      total = length + n + 1) best (f.longestFrom states length best s) := by
  induction s generalizing u states length best with
  | nil =>
    rw [longestFrom]
    exact Latest.of_forall_not fun n a hfound => Nat.not_lt_zero n hfound.1
  | cons c s ih =>
    have hcode : Code.ofChar c ≠ Code.silent :=
      (isLetter_of_mem_chars (Code.ofChar_mem_chars c)).2.2
    rw [longestFrom]
    simp only
    split
    · rename_i htargets
      refine Latest.of_forall_not fun n a hfound => ?_
      exact not_mem_matched_of_targetsOn hstates htargets _ hfound.2.1
    · have hnext (i : Nat) := mem_silentClosure_targetsOn_iff hclosed hstates hcode (i := i)
      refine Latest.cons (fun n a => ?_) ?_ (ih (fun i _ => hnext i) (length + 1) _)
      · rw [List.length_cons, List.take_succ_cons, codes_cons, List.append_assoc,
          List.singleton_append]
        have hplaces : length + (n + 1) + 1 = length + 1 + n + 1 := by omega
        rw [hplaces, Nat.add_lt_add_iff_right]
      · have hexit : u ++ codes ((c :: s).take 1) ∈ f.matched ↔
            f.ends.exit ∈ f.graph.silentClosure (f.graph.targetsOn states (Code.ofChar c)) :=
          (hnext f.ends.exit).symm
        split
        · rename_i hcontains
          refine Latest.of_found ⟨rfl, Nat.succ_pos _, hexit.mpr ?_, rfl⟩ fun n a hfound => hfound.1
          exact List.contains_iff_mem.mp hcontains
        · rename_i hcontains
          refine Latest.of_forall_not fun n a hfound => hcontains ?_
          exact List.contains_iff_mem.mpr (hexit.mp hfound.2.2.1)

/-- Simulation gives the length of the longest beginning of a text, other than the empty one, that
leads through the fragment, if there is one. -/
theorem longestMatch_spec (s : List Char) :
    match f.longestMatch s with
    | some n => IsGreatest {n | 0 < n ∧ n ≤ s.length ∧ codes (s.take n) ∈ f.matched} n
    | none => ∀ n, 0 < n → n ≤ s.length → codes (s.take n) ∉ f.matched := by
  have hlatest := latest_longestFrom hclosed (reaches_entry hclosed) 0 none s
  rw [← longestMatch] at hlatest
  simp only [List.nil_append, Nat.zero_add] at hlatest
  rcases hlatest with ⟨hresult, hnone⟩ | ⟨n, length, hresult, ⟨hlt, hmatched, rfl⟩, hlast⟩
  · rw [hresult]
    intro n hpos hle hmem
    obtain ⟨m, rfl⟩ := Nat.exists_eq_succ_of_ne_zero (Nat.ne_of_gt hpos)
    exact hnone m _ ⟨hle, hmem, rfl⟩
  · rw [hresult]
    refine ⟨⟨Nat.succ_pos n, hlt, hmatched⟩, ?_⟩
    rintro k ⟨hpos, hle, hmem⟩
    obtain ⟨m, rfl⟩ := Nat.exists_eq_succ_of_ne_zero (Nat.ne_of_gt hpos)
    exact Nat.succ_le_succ (hlast m _ ⟨hle, hmem, rfl⟩)

/-- A length is found exactly if it is that of the longest beginning of a text, other than the
empty one, that spells a path from the entry to the exit, and none is found exactly if no such
beginning does.  Labels may overlap, and silent edges may lead around in circles. -/
theorem longestMatch_eq_iff (s : List Char) :
    (∀ n, f.longestMatch s = some n ↔
      IsGreatest {n | 1 ≤ n ∧ n ≤ s.length ∧
        f.graph.Path f.ends.entry (codes (s.take n)) f.ends.exit} n) ∧
    (f.longestMatch s = none ↔
      ∀ n, 1 ≤ n → n ≤ s.length →
        ¬f.graph.Path f.ends.entry (codes (s.take n)) f.ends.exit) := by
  have hspec := longestMatch_spec hclosed s
  cases hlongest : f.longestMatch s with
  | none =>
    rw [hlongest] at hspec
    refine ⟨fun n => iff_of_false nofun fun hgreatest => ?_, iff_of_true rfl hspec⟩
    obtain ⟨hpos, hle, hpath⟩ := hgreatest.1
    exact hspec n hpos hle hpath
  | some n =>
    rw [hlongest] at hspec
    refine ⟨fun m => ⟨fun heq => ?_, fun hgreatest => ?_⟩, iff_of_false nofun fun hnone => ?_⟩
    · rw [← Option.some.inj heq]
      exact hspec
    · rw [hspec.unique hgreatest]
    · obtain ⟨hpos, hle, hpath⟩ := hspec.1
      exact hnone n hpos hle hpath

end Simulation

/-- Two states in a silent circle and a state behind them.  Two labels overlap, and one that is read
on a letter can be passed without input as well. -/
def circling : Fragment where
  graph := ⟨#[
    ⟨false, [⟨CodeSet.silent, 1⟩]⟩,
    ⟨false, [⟨⟨[-1, 0, 98, 99], by decide, by decide⟩, 0⟩, ⟨CodeSet.firstLetters, 2⟩]⟩,
    ⟨false, []⟩]⟩
  ends := ⟨0, 2⟩

/-- The third letter is on no label, so that no path reads it. -/
theorem third_not_mem_of_path_circling {i j : Nat} {w : List Int}
    (hpath : circling.graph.Path i w j) : (99 : Int) ∉ w := by
  have hlabels : ∀ i < circling.graph.size, ∀ e ∈ circling.graph.edges i,
      (99 : Int) ∉ e.label := by decide
  induction hpath with
  | nil => exact List.not_mem_nil
  | silent _ _ _ ih => exact ih
  | read he hc _ _ ih =>
    refine List.not_mem_cons_of_ne_of_not_mem ?_ ih
    rintro rfl
    exact hlabels _ (lt_size_of_mem_edges he) _ he hc

theorem longestMatch_circling :
    circling.graph.Closed ∧ circling.longestMatch "bbac".toList = some 3 ∧
      circling.longestMatch "ca".toList = none := by
  have hclosed : circling.graph.Closed := by decide
  have hfirst : circling.graph.Path 0 [] 1 :=
    Path.silent (e := ⟨CodeSet.silent, 1⟩) (by decide) (by decide) (Path.nil 1)
  have hround : circling.graph.Path 1 [98] 1 :=
    (Path.of_edge (e := ⟨⟨[-1, 0, 98, 99], by decide, by decide⟩, 0⟩) (by decide) (by decide)
      (by decide)).append_silent hfirst
  have hlast : circling.graph.Path 1 [97] 2 :=
    Path.of_edge (e := ⟨CodeSet.firstLetters, 2⟩) (by decide) (by decide) (by decide)
  refine ⟨hclosed, ((longestMatch_eq_iff hclosed _).1 3).mpr ⟨⟨by decide, by decide, ?_⟩, ?_⟩,
    (longestMatch_eq_iff hclosed _).2.mpr fun n hpos _ hpath => ?_⟩
  · exact hfirst.append (hround.append (hround.append hlast))
  · rintro n ⟨-, hle, hpath⟩
    by_contra hlt
    obtain rfl : n = 4 := Nat.le_antisymm hle (Nat.lt_of_not_le hlt)
    exact third_not_mem_of_path_circling hpath (by decide)
  · obtain ⟨m, rfl⟩ := Nat.exists_eq_succ_of_ne_zero (Nat.ne_of_gt hpos)
    exact third_not_mem_of_path_circling hpath List.mem_cons_self

namespace Proper

variable {f : Fragment} (hproper : f.Proper)
include hproper

/-- A fragment matches without input when its exit is around its entry. -/
theorem nil_mem_matched_iff :
    [] ∈ f.matched ↔ f.ends.exit ∈ f.graph.silentClosure [f.ends.entry] :=
  (reaches_entry hproper.plain.closed f.ends.exit hproper.exit_lt).symm

/-- Simulation gives the longest beginning of a text that a fragment matches. -/
theorem bestOf_longestMatch (id : Int) (s : List Char) :
    Reference.BestOf (Reference.Fits (fun i => {w | some id = some i ∧ w ∈ f.matched}) s)
      ((f.longestMatch s).map fun length => ⟨id, length⟩) := by
  have hspec := longestMatch_spec hproper.plain.closed s
  cases hlongest : f.longestMatch s with
  | none =>
    rw [hlongest] at hspec
    rintro ⟨i, length⟩ ⟨hpos, hle, -, hmem⟩
    exact hspec length hpos hle hmem
  | some n =>
    rw [hlongest] at hspec
    obtain ⟨⟨hpos, hle, hmem⟩, hgreatest⟩ := hspec
    refine ⟨⟨hpos, hle, rfl, hmem⟩, ?_⟩
    rintro ⟨i, length⟩ ⟨hpos', hle', hid, hmem'⟩
    obtain rfl : id = i := Option.some.inj hid
    rcases Nat.lt_or_eq_of_le (hgreatest ⟨hpos', hle', hmem'⟩) with hlt | heq
    · exact Or.inl hlt
    · exact Or.inr ⟨heq, Int.le_refl id⟩

end Proper
end Fragment

namespace Reference

/-! ## All definitions -/

/-- The words of a token: those that match a definition with its id. -/
def tokenWords (definitions : List TokenDefinition) (id : Int) : Language Int :=
  {w | ∃ d ∈ definitions, d.id = some id ∧ w ∈ d.fragment.matched}

theorem mem_tokenWords {definitions : List TokenDefinition} {id : Int} {w : List Int} :
    w ∈ tokenWords definitions id ↔
      ∃ d ∈ definitions, d.id = some id ∧ w ∈ d.fragment.matched :=
  Iff.rfl

variable {s : List Char}

/-- One more definition adds its own candidates. -/
theorem fits_tokenWords_cons {d : TokenDefinition} {definitions : List TokenDefinition}
    {c : Candidate} :
    Fits (tokenWords (d :: definitions)) s c ↔
      Fits (tokenWords definitions) s c ∨
        Fits (fun i => {w | d.id = some i ∧ w ∈ d.fragment.matched}) s c := by
  have hwords : ∀ w, w ∈ tokenWords (d :: definitions) c.id ↔
      w ∈ tokenWords definitions c.id ∨ d.id = some c.id ∧ w ∈ d.fragment.matched := by
    intro w
    simp only [mem_tokenWords, List.exists_mem_cons_iff]
    exact or_comm
  unfold Fits
  rw [hwords, ← and_or_left, ← and_or_left]
  exact Iff.rfl

/-- Trying one more definition gives the best candidate with it. -/
theorem bestOf_tryDefinition {definitions : List TokenDefinition} {best : Option Candidate}
    (hbest : BestOf (Fits (tokenWords definitions) s) best) {d : TokenDefinition}
    (hproper : d.fragment.Proper) :
    BestOf (Fits (tokenWords (d :: definitions)) s) (tryDefinition s best d) := by
  rw [BestOf.congr fun c => fits_tokenWords_cons]
  cases hid : d.id with
  | none =>
    have htry : tryDefinition s best d = best := by rw [tryDefinition, hid]
    rw [htry]
    refine (BestOf.congr fun c => ?_).mpr hbest
    refine ⟨fun hfits => hfits.resolve_right fun hmore => ?_, Or.inl⟩
    cases hmore.2.2.1
  | some id =>
    have hlongest := hproper.bestOf_longestMatch id s
    cases hmatch : d.fragment.longestMatch s with
    | none =>
      have htry : tryDefinition s best d = best := by rw [tryDefinition, hid, hmatch]
      rw [htry]
      rw [hmatch] at hlongest
      refine (BestOf.congr fun c => ?_).mpr hbest
      exact ⟨fun hfits => hfits.resolve_right (hlongest c), Or.inl⟩
    | some length =>
      have htry : tryDefinition s best d = some (better best ⟨id, length⟩) := by
        rw [tryDefinition, hid, hmatch]
      rw [htry]
      rw [hmatch] at hlongest
      exact hbest.better hlongest

/-- Trying definitions one after the other gives the best candidate of all. -/
theorem bestOf_foldl {done : List TokenDefinition} {best : Option Candidate}
    (hbest : BestOf (Fits (tokenWords done) s) best) (definitions : List TokenDefinition)
    (hproper : ∀ d ∈ definitions, d.fragment.Proper) :
    BestOf (Fits (tokenWords (definitions.reverse ++ done)) s)
      (definitions.foldl (tryDefinition s) best) := by
  induction definitions generalizing done best with
  | nil => exact hbest
  | cons d definitions ih =>
    rw [List.foldl_cons, List.reverse_cons, List.append_assoc]
    exact ih (bestOf_tryDefinition hbest (hproper d List.mem_cons_self)) fun e he =>
      hproper e (List.mem_cons_of_mem d he)

/-- The best match at the front of a text is the best candidate, and a character without
a token if there is none. -/
theorem exists_bestOf_bestMatch (definitions : List TokenDefinition)
    (hproper : ∀ d ∈ definitions, d.fragment.Proper) (s : List Char) :
    ∃ best, BestOf (Fits (tokenWords definitions) s) best ∧
      bestMatch definitions s = best.getD ⟨unknownToken, 1⟩ := by
  have hnone : BestOf (Fits (tokenWords []) s) none := by
    rintro c ⟨-, -, d, hd, -⟩
    cases hd
  have hbest := bestOf_foldl hnone definitions hproper
  refine ⟨_, (BestOf.congr fun c => ?_).mp hbest, rfl⟩
  simp only [Fits, mem_tokenWords, List.append_nil, List.mem_reverse]

end Reference
end Munch

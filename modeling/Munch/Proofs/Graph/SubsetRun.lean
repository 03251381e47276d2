import Mathlib.Algebra.Group.Nat.Defs
import Mathlib.Data.List.Sublists
import Munch.Graph.Subset
import Munch.Proofs.Graph.Search

/-!
# Subset construction runs to its end

A subset construction under way numbers sets of states without repetition, and the
states it has expanded have the edges that the moves of their sets ask for.  Every
expansion takes one state off the pending ones.  There are no more sets than the
allowed number of expansions, so nothing is pending at the end.

Main results:

- Theorem {lit}`Graph.Subsets.size_keys_le`: the bound on the number of sets.
- Theorem {lit}`Graph.Subsets.Progress.expand`: one expansion keeps the invariant.
- Theorem {lit}`Graph.Subsets.Progress.run`: the run leaves nothing pending.
-/

namespace Munch
namespace Graph
namespace Subsets

/-- The set of states that a state stands for. -/
def key (t : Subsets) (i : Nat) : List Nat := t.keys[i]?.getD []

/-- A state that there is has its set. -/
theorem getElem?_keys {t : Subsets} {i : Nat} (hi : i < t.keys.size) :
    t.keys[i]? = some (t.key i) := by
  rw [key, Array.getElem?_eq_getElem hi, Option.getD_some]

variable {nfa : Graph} {t t' : Subsets} {key : List Nat} {i j : Nat}
  {moves : List (CodeSet × List Nat)}

/-! ## The invariant -/

/-- A set of states, listed in increasing order. -/
def IsKey (nfa : Graph) (key : List Nat) : Prop :=
  key.Pairwise (· < ·) ∧ ∀ q ∈ key, q < nfa.size

/-- A closure is the set of a state. -/
theorem isKey_silentClosure {targets : List Nat} : IsKey nfa (nfa.silentClosure targets) :=
  ⟨pairwise_silentClosure, fun _ hq => lt_size_of_mem_silentClosure hq⟩

/-- States and sets correspond to each other, and pending states have no edges yet. -/
structure Numbered (nfa : Graph) (t : Subsets) : Prop where
  size_eq : t.graph.size = t.keys.size
  numbers_iff : ∀ (key : List Nat) (i : Nat), t.numbers[key]? = some i ↔ t.keys[i]? = some key
  isKey : ∀ (i : Nat) (key : List Nat), t.keys[i]? = some key → IsKey nfa key
  isFinal_eq : ∀ (i : Nat) (key : List Nat), t.keys[i]? = some key →
    t.graph.isFinal i = key.any nfa.isFinal
  closed : t.graph.Closed
  nodup_pending : t.pending.Nodup
  lt_of_pending : ∀ i ∈ t.pending, i < t.keys.size
  edges_of_pending : ∀ i ∈ t.pending, t.graph.edges i = []

/-- The edges of a state are those its set asks for, in the same order. -/
def Settled (nfa : Graph) (t : Subsets) (i : Nat) : Prop :=
  ∀ key, t.keys[i]? = some key →
    (t.graph.edges i).map (fun e => (e.label, t.keys[e.target]?)) =
      (nfa.movesFrom key).map fun m => (m.1, some (nfa.silentClosure m.2))

/-- Every state but the first is the target of an edge of an earlier one. -/
def Reached (t : Subsets) : Prop :=
  ∀ j, 0 < j → j < t.keys.size → ∃ i < j, ∃ e ∈ t.graph.edges i, e.target = j

/-- Looking up sets of states has added the later states, all of them pending. -/
structure Extends (t t' : Subsets) : Prop where
  size_le : t.keys.size ≤ t'.keys.size
  keys_eq : ∀ i < t.keys.size, t'.keys[i]? = t.keys[i]?
  edges_eq : ∀ i, t'.graph.edges i = t.graph.edges i
  pending_iff : ∀ i, i ∈ t'.pending ↔ i ∈ t.pending ∨ t.keys.size ≤ i ∧ i < t'.keys.size
  length_pending : t'.pending.length + t.keys.size = t.pending.length + t'.keys.size

/-- A table extends itself. -/
theorem Extends.refl (t : Subsets) : Extends t t where
  size_le := Nat.le_refl _
  keys_eq _ _ := rfl
  edges_eq _ := rfl
  pending_iff i := by
    constructor
    · exact Or.inl
    · rintro (hmem | ⟨hle, hlt⟩)
      · exact hmem
      · omega
  length_pending := rfl

/-- An extension of an extension is one of the first table. -/
theorem Extends.trans {t'' : Subsets} (hfirst : Extends t t') (hsecond : Extends t' t'') :
    Extends t t'' where
  size_le := Nat.le_trans hfirst.size_le hsecond.size_le
  keys_eq i hi := by
    rw [hsecond.keys_eq i (Nat.lt_of_lt_of_le hi hfirst.size_le), hfirst.keys_eq i hi]
  edges_eq i := by rw [hsecond.edges_eq, hfirst.edges_eq]
  pending_iff i := by
    have hle := hfirst.size_le
    have hle' := hsecond.size_le
    rw [hsecond.pending_iff, hfirst.pending_iff, or_assoc]
    refine or_congr_right ?_
    omega
  length_pending := by
    have hlen := hfirst.length_pending
    have hlen' := hsecond.length_pending
    omega

/-- Sets that were numbered keep their numbers. -/
theorem Extends.getElem? (hext : Extends t t') (hkey : t.keys[i]? = some key) :
    t'.keys[i]? = some key := by
  obtain ⟨hi, -⟩ := Array.getElem?_eq_some_iff.mp hkey
  rw [hext.keys_eq i hi, hkey]

/-- Different states stand for different sets. -/
theorem Numbered.injective (hnum : Numbered nfa t) (hi : t.keys[i]? = some key)
    (hj : t.keys[j]? = some key) : i = j := by
  have hi' := (hnum.numbers_iff key i).mpr hi
  rw [(hnum.numbers_iff key j).mpr hj] at hi'
  exact (Option.some.inj hi').symm

/-! ## Looking up a set of states -/

/-- A set that has a number keeps it. -/
theorem stateFor_of_some (hkey : t.numbers[key]? = some i) : t.stateFor nfa key = (i, t) := by
  simp only [stateFor, hkey]

/-- A set without a number gets the next one. -/
theorem stateFor_of_none (hkey : t.numbers[key]? = none) :
    t.stateFor nfa key =
      (t.keys.size,
        { graph := t.graph.addState (key.any nfa.isFinal)
          keys := t.keys.push key
          numbers := t.numbers.insert key t.keys.size
          pending := t.keys.size :: t.pending }) := by
  simp only [stateFor, hkey]

/-- One more set is found behind the others. -/
theorem getElem?_push_keys_iff {other : List Nat} :
    (t.keys.push key)[i]? = some other ↔
      t.keys[i]? = some other ∨ i = t.keys.size ∧ other = key := by
  rw [Array.getElem?_push]
  split
  · rename_i hi
    have hnone : t.keys[i]? = none := Array.getElem?_eq_none (Nat.le_of_eq hi.symm)
    rw [hnone, Option.some.injEq, eq_comm]
    simp only [hi, reduceCtorEq, false_or, true_and]
  · rename_i hi
    simp only [hi, false_and, or_false]

/-- Looking up a set of states gives the state that stands for it. -/
theorem getElem?_stateFor (key : List Nat) (hnum : Numbered nfa t) :
    (t.stateFor nfa key).2.keys[(t.stateFor nfa key).1]? = some key := by
  cases hkey : t.numbers[key]? with
  | some i =>
    rw [stateFor_of_some hkey]
    exact (hnum.numbers_iff key i).mp hkey
  | none =>
    rw [stateFor_of_none hkey]
    exact Array.getElem?_push_size

/-- Looking a set up extends the table. -/
theorem extends_stateFor : Extends t (t.stateFor nfa key).2 := by
  cases hkey : t.numbers[key]? with
  | some i =>
    rw [stateFor_of_some hkey]
    exact Extends.refl t
  | none =>
    rw [stateFor_of_none hkey]
    exact
      { size_le := by simp
        keys_eq := fun i hi => by
          rw [Array.getElem?_push, if_neg (Nat.ne_of_lt hi)]
        edges_eq := fun i => edges_addState _ _ _
        pending_iff := fun i => by
          rw [List.mem_cons, Array.size_push, or_comm]
          refine or_congr_right ?_
          omega
        length_pending := by
          rw [List.length_cons, Array.size_push]
          omega }

/-- A state that a lookup adds is the one it returns. -/
theorem eq_stateFor_of_le (hle : t.keys.size ≤ j) (hlt : j < (t.stateFor nfa key).2.keys.size) :
    j = (t.stateFor nfa key).1 := by
  cases hkey : t.numbers[key]? with
  | some i =>
    rw [stateFor_of_some hkey] at hlt
    exact absurd hlt (Nat.not_lt.mpr hle)
  | none =>
    rw [stateFor_of_none hkey] at hlt ⊢
    rw [Array.size_push] at hlt
    exact Nat.le_antisymm (Nat.le_of_lt_succ hlt) hle

/-- A lookup keeps the numbering of sets. -/
theorem Numbered.stateFor (hnum : Numbered nfa t) (hkey : IsKey nfa key) :
    Numbered nfa (t.stateFor nfa key).2 := by
  cases hnumber : t.numbers[key]? with
  | some i =>
    rw [stateFor_of_some hnumber]
    exact hnum
  | none =>
    have hnew : ∀ i : Nat, t.keys[i]? ≠ some key := by
      intro i hi
      rw [(hnum.numbers_iff key i).mpr hi] at hnumber
      cases hnumber
    rw [stateFor_of_none hnumber]
    exact
      { size_eq := by rw [size_addState, Array.size_push, hnum.size_eq]
        numbers_iff := fun other i => by
          rw [getElem?_push_keys_iff]
          by_cases hother : key = other
          · subst hother
            rw [Std.HashMap.getElem?_insert_self, Option.some.injEq, eq_comm]
            simp only [hnew i, and_true, false_or]
          · have hbeq : ¬(key == other) = true := mt eq_of_beq hother
            rw [Std.HashMap.getElem?_insert, if_neg hbeq]
            simp only [Ne.symm hother, and_false, or_false]
            exact hnum.numbers_iff other i
        isKey := fun i other hget => by
          rcases getElem?_push_keys_iff.mp hget with hold | ⟨-, rfl⟩
          · exact hnum.isKey i other hold
          · exact hkey
        isFinal_eq := fun i other hget => by
          rw [isFinal_addState, hnum.size_eq]
          rcases getElem?_push_keys_iff.mp hget with hold | ⟨hi, rfl⟩
          · obtain ⟨hlt, -⟩ := Array.getElem?_eq_some_iff.mp hold
            rw [if_neg (Nat.ne_of_lt hlt)]
            exact hnum.isFinal_eq i other hold
          · rw [if_pos hi]
        closed := fun i e he => by
          rw [edges_addState] at he
          rw [size_addState]
          exact Nat.lt_succ_of_lt (hnum.closed i e he)
        nodup_pending := List.nodup_cons.mpr
          ⟨fun hmem => Nat.lt_irrefl _ (hnum.lt_of_pending _ hmem), hnum.nodup_pending⟩
        lt_of_pending := fun i hi => by
          rw [Array.size_push]
          rcases List.mem_cons.mp hi with rfl | hi
          · exact Nat.lt_succ_self _
          · exact Nat.lt_succ_of_lt (hnum.lt_of_pending i hi)
        edges_of_pending := fun i hi => by
          rw [edges_addState]
          rcases List.mem_cons.mp hi with rfl | hi
          · exact edges_eq_nil_of_size_le (Nat.le_of_eq hnum.size_eq)
          · exact hnum.edges_of_pending i hi }

/-! ## Following moves -/

/-- Moves are followed one after the other. -/
theorem follow_cons (label : CodeSet) (targets : List Nat) :
    t.follow nfa ((label, targets) :: moves) =
      (⟨label, (t.stateFor nfa (nfa.silentClosure targets)).1⟩ ::
          ((t.stateFor nfa (nfa.silentClosure targets)).2.follow nfa moves).1,
        ((t.stateFor nfa (nfa.silentClosure targets)).2.follow nfa moves).2) :=
  rfl

/-- Following moves extends the table. -/
theorem extends_follow : Extends t (t.follow nfa moves).2 := by
  induction moves generalizing t with
  | nil => exact Extends.refl t
  | cons move moves ih =>
    rw [follow_cons]
    exact extends_stateFor.trans ih

/-- It keeps the numbering. -/
theorem Numbered.follow (hnum : Numbered nfa t) : Numbered nfa (t.follow nfa moves).2 := by
  induction moves generalizing t with
  | nil => exact hnum
  | cons move moves ih =>
    rw [follow_cons]
    exact ih (hnum.stateFor isKey_silentClosure)

/-- The edges that follow some moves lead to the sets those moves lead to. -/
theorem map_follow (hnum : Numbered nfa t) :
    (t.follow nfa moves).1.map (fun e => (e.label, (t.follow nfa moves).2.keys[e.target]?)) =
      moves.map fun m => (m.1, some (nfa.silentClosure m.2)) := by
  induction moves generalizing t with
  | nil => rfl
  | cons move moves ih =>
    have hkey := getElem?_stateFor (nfa.silentClosure move.2) hnum
    rw [follow_cons, List.map_cons, List.map_cons, ih (hnum.stateFor isKey_silentClosure),
      extends_follow.getElem? hkey]

/-- Every state added while following moves is the target of an edge. -/
theorem exists_mem_follow (hle : t.keys.size ≤ j) (hlt : j < (t.follow nfa moves).2.keys.size) :
    ∃ e ∈ (t.follow nfa moves).1, e.target = j := by
  induction moves generalizing t with
  | nil => exact absurd hlt (Nat.not_lt.mpr hle)
  | cons move moves ih =>
    rw [follow_cons] at hlt ⊢
    by_cases hj : j < (t.stateFor nfa (nfa.silentClosure move.2)).2.keys.size
    · exact ⟨_, List.mem_cons_self, (eq_stateFor_of_le hle hj).symm⟩
    · obtain ⟨e, he, htarget⟩ := ih (Nat.not_lt.mp hj) hlt
      exact ⟨e, List.mem_cons_of_mem _ he, htarget⟩

/-- The edges lead to states that have numbers. -/
theorem target_lt_of_mem_follow (hnum : Numbered nfa t) {e : Edge}
    (he : e ∈ (t.follow nfa moves).1) : e.target < (t.follow nfa moves).2.keys.size := by
  have hmem := List.mem_map_of_mem
    (f := fun e => (e.label, (t.follow nfa moves).2.keys[e.target]?)) he
  rw [map_follow hnum] at hmem
  obtain ⟨m, -, heq⟩ := List.mem_map.mp hmem
  have hget := (Prod.ext_iff.mp heq).2
  obtain ⟨hlt, -⟩ := Array.getElem?_eq_some_iff.mp hget.symm
  exact hlt

/-! ## Expanding a state -/

/-- The construction that has taken a state off the pending ones and looked up the
targets of its moves. -/
def followed (nfa : Graph) (t : Subsets) (i : Nat) (rest : List Nat) : List Edge × Subsets :=
  ({ t with pending := rest } : Subsets).follow nfa (nfa.movesFrom (t.key i))

/-- What is true of a construction between two expansions. -/
structure Progress (nfa : Graph) (t : Subsets) : Prop where
  numbered : Numbered nfa t
  settled : ∀ i, i ∉ t.pending → Settled nfa t i
  reached : Reached t

/-- Edges that are set are found at their state. -/
theorem edges_setEdges {g : Graph} {es : List Edge} :
    (g.setEdges i es).edges j = if i = j ∧ j < g.size then es else g.edges j :=
  edges_mapEdges g i _ j

section Expand

variable {rest : List Nat}

/-- Expanding a state sets the edges that lead to the sets of its moves. -/
theorem expand_eq :
    ({ t with pending := rest } : Subsets).expand nfa i =
      { (followed nfa t i rest).2 with
        graph := (followed nfa t i rest).2.graph.setEdges i (followed nfa t i rest).1 } :=
  rfl

@[simp]
theorem keys_expand :
    (({ t with pending := rest } : Subsets).expand nfa i).keys = (followed nfa t i rest).2.keys :=
  rfl

@[simp]
theorem pending_expand :
    (({ t with pending := rest } : Subsets).expand nfa i).pending =
      (followed nfa t i rest).2.pending :=
  rfl

/-- Taking a state from those pending keeps the numbering. -/
theorem Numbered.taking (hnum : Numbered nfa t) (hpending : t.pending = i :: rest) :
    Numbered nfa { t with pending := rest } where
  size_eq := hnum.size_eq
  numbers_iff := hnum.numbers_iff
  isKey := hnum.isKey
  isFinal_eq := hnum.isFinal_eq
  closed := hnum.closed
  nodup_pending := (List.nodup_cons.mp (hpending ▸ hnum.nodup_pending)).2
  lt_of_pending j hj := hnum.lt_of_pending j (hpending ▸ List.mem_cons_of_mem i hj)
  edges_of_pending j hj := hnum.edges_of_pending j (hpending ▸ List.mem_cons_of_mem i hj)

/-- A state that is taken for expansion leaves an extension. -/
theorem extends_followed : Extends { t with pending := rest } (followed nfa t i rest).2 :=
  extends_follow

/-- The state that is being expanded is not pending any more. -/
theorem not_mem_pending_followed (hnum : Numbered nfa t) (hpending : t.pending = i :: rest) :
    i ∉ (followed nfa t i rest).2.pending := by
  intro hmem
  rcases (extends_followed.pending_iff i).mp hmem with hrest | ⟨hle, -⟩
  · exact (List.nodup_cons.mp (hpending ▸ hnum.nodup_pending)).1 hrest
  · have hi : i < t.keys.size := hnum.lt_of_pending i (hpending ▸ List.mem_cons_self)
    exact absurd hi (Nat.not_lt.mpr hle)

/-- Expanding a state keeps the numbering. -/
theorem Numbered.expand (hnum : Numbered nfa t) (hpending : t.pending = i :: rest) :
    Numbered nfa (({ t with pending := rest } : Subsets).expand nfa i) := by
  have htaking := hnum.taking hpending
  have hfollowed : Numbered nfa (followed nfa t i rest).2 := htaking.follow
  rw [expand_eq]
  exact
    { size_eq := by
        rw [size_setEdges]
        exact hfollowed.size_eq
      numbers_iff := hfollowed.numbers_iff
      isKey := hfollowed.isKey
      isFinal_eq := fun j key hkey => by
        rw [setEdges, isFinal_mapEdges]
        exact hfollowed.isFinal_eq j key hkey
      closed := fun j e he => by
        rw [edges_setEdges] at he
        rw [size_setEdges]
        split at he
        · rw [hfollowed.size_eq]
          exact target_lt_of_mem_follow htaking he
        · exact hfollowed.closed j e he
      nodup_pending := hfollowed.nodup_pending
      lt_of_pending := hfollowed.lt_of_pending
      edges_of_pending := fun j hj => by
        have hne : i ≠ j := by
          rintro rfl
          exact not_mem_pending_followed hnum hpending hj
        rw [edges_setEdges, if_neg fun h => hne h.1]
        exact hfollowed.edges_of_pending j hj }

/-- The state that is expanded gets its edges, and the others keep theirs. -/
theorem edges_expand (hnum : Numbered nfa t) (hpending : t.pending = i :: rest) :
    (({ t with pending := rest } : Subsets).expand nfa i).graph.edges j =
      if i = j then (followed nfa t i rest).1 else t.graph.edges j := by
  have hfollowed : Numbered nfa (followed nfa t i rest).2 := (hnum.taking hpending).follow
  rw [expand_eq, edges_setEdges, extends_followed.edges_eq]
  by_cases hij : i = j
  · subst hij
    have hi : i < t.keys.size := hnum.lt_of_pending i (hpending ▸ List.mem_cons_self)
    have hext : Extends { t with pending := rest } (followed nfa t i rest).2 := extends_followed
    have hlt : i < (followed nfa t i rest).2.graph.size := by
      rw [hfollowed.size_eq]
      exact Nat.lt_of_lt_of_le hi hext.size_le
    rw [if_pos ⟨rfl, hlt⟩, if_pos rfl]
  · rw [if_neg fun h => hij h.1, if_neg hij]

/-- A state that was settled stays so when more sets are numbered. -/
theorem Settled.of_extends (hclosed : ∀ e ∈ t.graph.edges j, e.target < t.keys.size)
    (hsettled : Settled nfa t j) (hj : j < t.keys.size)
    (hkeys : ∀ k < t.keys.size, t'.keys[k]? = t.keys[k]?)
    (hedges : t'.graph.edges j = t.graph.edges j) : Settled nfa t' j := by
  intro key hkey
  rw [hkeys j hj] at hkey
  rw [hedges, ← hsettled key hkey]
  refine List.map_congr_left fun e he => ?_
  rw [hkeys e.target (hclosed e he)]

/-- The state just expanded has the edges that follow the moves of its set. -/
theorem settled_expand_self (hnum : Numbered nfa t) (hpending : t.pending = i :: rest) :
    Settled nfa (({ t with pending := rest } : Subsets).expand nfa i) i := by
  intro key hkey
  have hext : Extends { t with pending := rest } (followed nfa t i rest).2 := extends_followed
  have hi : i < t.keys.size := hnum.lt_of_pending i (hpending ▸ List.mem_cons_self)
  rw [keys_expand, hext.keys_eq i hi] at hkey
  have hmoves : t.key i = key := Option.some.inj ((getElem?_keys hi).symm.trans hkey)
  rw [edges_expand hnum hpending, if_pos rfl, ← hmoves]
  exact map_follow (hnum.taking hpending)

/-- The states that were settled before an expansion stay so. -/
theorem settled_expand_of_ne (hnum : Numbered nfa t) (hpending : t.pending = i :: rest)
    (hij : i ≠ j) (hj : j < t.keys.size) (hsettled : Settled nfa t j) :
    Settled nfa (({ t with pending := rest } : Subsets).expand nfa i) j := by
  have hext : Extends { t with pending := rest } (followed nfa t i rest).2 := extends_followed
  refine hsettled.of_extends ?_ hj ?_ ?_
  · intro e he
    rw [← hnum.size_eq]
    exact hnum.closed j e he
  · intro k hk
    rw [keys_expand]
    exact hext.keys_eq k hk
  · rw [edges_expand hnum hpending, if_neg hij]

/-- New states are entered from the one that was expanded. -/
theorem reached_expand (hnum : Numbered nfa t) (hpending : t.pending = i :: rest)
    (hreached : Reached t) : Reached (({ t with pending := rest } : Subsets).expand nfa i) := by
  have hi : i < t.keys.size := hnum.lt_of_pending i (hpending ▸ List.mem_cons_self)
  intro j hpos hlt
  rw [keys_expand] at hlt
  by_cases hold : j < t.keys.size
  · obtain ⟨k, hkj, e, he, htarget⟩ := hreached j hpos hold
    have hne : i ≠ k := by
      rintro rfl
      rw [hnum.edges_of_pending i (hpending ▸ List.mem_cons_self)] at he
      cases he
    refine ⟨k, hkj, e, ?_, htarget⟩
    rwa [edges_expand hnum hpending, if_neg hne]
  · have hle := Nat.not_lt.mp hold
    obtain ⟨e, he, htarget⟩ := exists_mem_follow (t := { t with pending := rest }) hle hlt
    refine ⟨i, Nat.lt_of_lt_of_le hi hle, e, ?_, htarget⟩
    rw [edges_expand hnum hpending, if_pos rfl]
    exact he

/-- One expansion keeps the invariant. -/
theorem Progress.expand (hprogress : Progress nfa t) (hpending : t.pending = i :: rest) :
    Progress nfa (({ t with pending := rest } : Subsets).expand nfa i) where
  numbered := hprogress.numbered.expand hpending
  reached := reached_expand hprogress.numbered hpending hprogress.reached
  settled j hj := by
    have hnum := hprogress.numbered
    have hext : Extends { t with pending := rest } (followed nfa t i rest).2 := extends_followed
    by_cases hij : i = j
    · exact hij ▸ settled_expand_self hnum hpending
    · rw [pending_expand, hext.pending_iff, not_or] at hj
      intro key hkey
      have hlt : j < (followed nfa t i rest).2.keys.size :=
        (Array.getElem?_eq_some_iff.mp hkey).1
      have hold : j < t.keys.size := by
        by_contra hle
        exact hj.2 ⟨Nat.not_lt.mp hle, hlt⟩
      have hpend : j ∉ t.pending := by
        rw [hpending]
        exact not_or.mpr ⟨Ne.symm hij, hj.1⟩ ∘ List.mem_cons.mp
      exact settled_expand_of_ne hnum hpending hij hold (hprogress.settled j hpend) key hkey

/-- An expansion takes one state off the pending ones and puts the new ones there. -/
theorem length_pending_expand (nfa : Graph) (hpending : t.pending = i :: rest) :
    (({ t with pending := rest } : Subsets).expand nfa i).pending.length + t.keys.size + 1 =
      t.pending.length + (({ t with pending := rest } : Subsets).expand nfa i).keys.size := by
  have hext : Extends { t with pending := rest } (followed nfa t i rest).2 := extends_followed
  have hlength : (followed nfa t i rest).2.pending.length + t.keys.size =
      rest.length + (followed nfa t i rest).2.keys.size := hext.length_pending
  rw [pending_expand, keys_expand, hpending, List.length_cons]
  omega

end Expand

/-! ## The run -/

/-- There are no more sets than lists of states in increasing order. -/
theorem size_keys_le (hnum : Numbered nfa t) : t.keys.size ≤ 2 ^ nfa.size := by
  have hnodup : t.keys.toList.Nodup := by
    rw [List.nodup_iff_injective_getElem]
    intro a b hab
    have ha : t.keys[a.val]? = some t.keys[a.val] := Array.getElem?_eq_getElem (by simp)
    have hb : t.keys[b.val]? = some t.keys[b.val] := Array.getElem?_eq_getElem (by simp)
    simp only [Array.getElem_toList] at hab
    exact Fin.ext (hnum.injective (ha.trans (congrArg some hab)) hb)
  have hsub : t.keys.toList ⊆ (List.range nfa.size).sublists := by
    intro key hkey
    obtain ⟨i, hi⟩ := List.getElem?_of_mem hkey
    rw [Array.getElem?_toList] at hi
    obtain ⟨hsorted, hlt⟩ := hnum.isKey i key hi
    rw [List.mem_sublists]
    refine List.sublist_of_subperm_of_pairwise ?_ hsorted List.pairwise_lt_range
    have hnodup : key.Nodup := hsorted.imp fun h => Nat.ne_of_lt h
    exact hnodup.subperm fun q hq => List.mem_range.mpr (hlt q hq)
  have hlength := (hnodup.subperm hsub).length_le
  rwa [List.length_sublists, List.length_range, Array.length_toList] at hlength

/-- The run leaves nothing pending, and every state has its edges. -/
theorem Progress.run {steps : Nat} (hprogress : Progress nfa t)
    (hfuel : t.pending.length + 2 ^ nfa.size ≤ steps + t.keys.size) :
    Progress nfa (t.run nfa steps) ∧ (t.run nfa steps).pending = [] := by
  induction steps generalizing t with
  | zero =>
    have hle := size_keys_le hprogress.numbered
    have hlength : t.pending.length = 0 := by omega
    exact ⟨hprogress, List.eq_nil_of_length_eq_zero hlength⟩
  | succ steps ih =>
    rw [Subsets.run]
    split
    · rename_i hpending
      exact ⟨hprogress, hpending⟩
    · rename_i i rest hpending
      have hlength := length_pending_expand nfa hpending
      exact ih (hprogress.expand hpending) (by omega)

/-- A run keeps the sets numbered before it. -/
theorem keys_run_of_lt {steps : Nat} (hi : i < t.keys.size) :
    (t.run nfa steps).keys[i]? = t.keys[i]? := by
  induction steps generalizing t with
  | zero => rfl
  | succ steps ih =>
    rw [Subsets.run]
    split
    · rfl
    · rename_i k rest hpending
      have hext : Extends { t with pending := rest } (followed nfa t k rest).2 := extends_followed
      have hsize : i < (followed nfa t k rest).2.keys.size := Nat.lt_of_lt_of_le hi hext.size_le
      rw [ih (by rwa [keys_expand]), keys_expand]
      exact hext.keys_eq i hi

/-! ## The finished construction -/

/-- At first nothing is numbered. -/
theorem numbered_initial : Numbered nfa initial where
  size_eq := rfl
  numbers_iff key i := by simp [initial]
  isKey i key hkey := by simp [initial] at hkey
  isFinal_eq i key hkey := by simp [initial] at hkey
  closed i e he := by
    rw [edges_eq_nil_of_size_le (Nat.zero_le i)] at he
    cases he
  nodup_pending := List.nodup_nil
  lt_of_pending i hi := by cases hi
  edges_of_pending i hi := by cases hi

/-- Only the set of the start has been numbered. -/
def begun (nfa : Graph) (start : Nat) : Subsets :=
  (initial.stateFor nfa (nfa.silentClosure [start])).2

/-- The construction that has come to its end. -/
def finished (nfa : Graph) (start : Nat) : Subsets :=
  (begun nfa start).run nfa (Nat.pow 2 nfa.size)

variable {start : Nat}

theorem begun_eq (nfa : Graph) (start : Nat) :
    begun nfa start =
      { graph := initial.graph.addState ((nfa.silentClosure [start]).any nfa.isFinal)
        keys := #[nfa.silentClosure [start]]
        numbers := initial.numbers.insert (nfa.silentClosure [start]) 0
        pending := [0] } := by
  have hnone : initial.numbers[nfa.silentClosure [start]]? = none := by simp [initial]
  rw [begun, stateFor_of_none hnone]
  rfl

/-- At the beginning the start is pending. -/
theorem progress_begun : Progress nfa (begun nfa start) where
  numbered := numbered_initial.stateFor isKey_silentClosure
  settled i hi key hkey := by
    rw [begun_eq] at hi hkey
    have hlt : i < 1 := (Array.getElem?_eq_some_iff.mp hkey).1
    exact absurd (List.mem_singleton.mpr (Nat.lt_one_iff.mp hlt)) hi
  reached j hpos hlt := by
    rw [begun_eq] at hlt
    exact absurd hlt (Nat.not_lt.mpr hpos)

/-- In the end nothing is pending. -/
theorem progress_finished (nfa : Graph) (start : Nat) :
    Progress nfa (finished nfa start) ∧ (finished nfa start).pending = [] := by
  refine progress_begun.run ?_
  rw [begun_eq]
  exact Nat.le_of_eq (Nat.add_comm _ _)

/-- The first state stands for what the start leads to without input. -/
theorem getElem?_finished_zero :
    (finished nfa start).keys[0]? = some (nfa.silentClosure [start]) := by
  rw [finished, keys_run_of_lt (by rw [begun_eq]; exact Nat.one_pos), begun_eq]
  rfl

end Subsets

/-- The automaton is the graph of the table in the end. -/
theorem subsets_eq {nfa : Graph} {start : Nat} :
    nfa.subsets start = (Subsets.finished nfa start).graph :=
  rfl

end Graph
end Munch

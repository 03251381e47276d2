import Munch.Proofs.Graph.Cut
import Munch.Proofs.Graph.SubsetRun

/-!
# Subset construction determinizes

Each state of the automaton that subset construction leaves stands for a set of
states of the given one.  A word leads from a state to the state whose set holds
exactly what the word leads to from the members of the first set.

Main results:

- Theorem {lit}`Graph.mem_members_iff_of_path`: the set that a word leads to.
- Theorem {lit}`Graph.deterministic_subsets`: the result is deterministic.
- Theorem {lit}`Graph.accepts_subsets_iff`: a state accepts what its members accept.
- Theorem {lit}`Graph.exists_path_subsets`: words reach every state.
-/

namespace Munch
namespace Graph

/-! ## Moves of a set of states -/

section Moves

variable {label l : CodeSet} {target q : Nat} {m : CodeSet × List Nat}
  {moves : List (CodeSet × List Nat)} {nfa : Graph} {key : List Nat}

/-- Among some moves there is one with the label to the target. -/
def HasMove (moves : List (CodeSet × List Nat)) (label : CodeSet) (q : Nat) : Prop :=
  ∃ m ∈ moves, m.1 = label ∧ q ∈ m.2

theorem hasMove_cons_iff :
    HasMove (m :: moves) label q ↔ (m.1 = label ∧ q ∈ m.2) ∨ HasMove moves label q := by
  simp only [HasMove, List.mem_cons, exists_eq_or_imp]

/-- Adding a move adds that move. -/
theorem hasMove_addMove_iff :
    HasMove (addMove l target moves) label q ↔
      (l = label ∧ q = target) ∨ HasMove moves label q := by
  induction moves with
  | nil => simp [addMove, HasMove]
  | cons m moves ih =>
    obtain ⟨l', targets⟩ := m
    rw [addMove]
    split
    · rename_i hlabel
      subst hlabel
      rw [hasMove_cons_iff, hasMove_cons_iff, List.mem_cons, ← or_assoc, ← and_or_left]
    · rw [hasMove_cons_iff, hasMove_cons_iff, ih, or_left_comm]

theorem mem_labels_addMove_iff :
    label ∈ (addMove l target moves).map Prod.fst ↔ label = l ∨ label ∈ moves.map Prod.fst := by
  induction moves with
  | nil => simp [addMove]
  | cons m moves ih =>
    obtain ⟨l', targets⟩ := m
    rw [addMove]
    split
    · rename_i hlabel
      subst hlabel
      simp
    · rw [List.map_cons, List.mem_cons, ih, List.map_cons, List.mem_cons, or_left_comm]

/-- Moves with one label are kept together. -/
theorem nodup_labels_addMove (hnodup : (moves.map Prod.fst).Nodup) :
    ((addMove l target moves).map Prod.fst).Nodup := by
  induction moves with
  | nil => simp [addMove]
  | cons m moves ih =>
    obtain ⟨l', targets⟩ := m
    obtain ⟨hnot, hrest⟩ := List.nodup_cons.mp hnodup
    rw [addMove]
    split
    · exact hnodup
    · rename_i hne
      refine List.nodup_cons.mpr ⟨fun hmem => ?_, ih hrest⟩
      rcases mem_labels_addMove_iff.mp hmem with heq | hmem
      · exact hne heq
      · exact hnot hmem

theorem targets_ne_nil_addMove (hmoves : ∀ m ∈ moves, m.2 ≠ []) (hm : m ∈ addMove l target moves) :
    m.2 ≠ [] := by
  induction moves with
  | nil =>
    rw [List.mem_singleton.mp hm]
    exact List.cons_ne_nil _ _
  | cons m' moves ih =>
    obtain ⟨l', targets⟩ := m'
    rw [addMove] at hm
    split at hm
    · rcases List.mem_cons.mp hm with rfl | hm
      · exact List.cons_ne_nil _ _
      · exact hmoves m (List.mem_cons_of_mem _ hm)
    · rcases List.mem_cons.mp hm with rfl | hm
      · exact hmoves _ List.mem_cons_self
      · exact ih (fun x hx => hmoves x (List.mem_cons_of_mem _ hx)) hm

/-- What grouping edges by label leaves. -/
structure Grouped (edges : List Edge) (moves : List (CodeSet × List Nat)) : Prop where
  hasMove_iff : ∀ label q, HasMove moves label q ↔ ⟨label, q⟩ ∈ edges
  nodup_labels : (moves.map Prod.fst).Nodup
  targets_ne_nil : ∀ m ∈ moves, m.2 ≠ []

theorem Grouped.foldl {done edges : List Edge} (hgrouped : Grouped done moves) :
    Grouped (done ++ edges)
      (edges.foldl (fun moves e => addMove e.label e.target moves) moves) := by
  induction edges generalizing done moves with
  | nil => rwa [List.append_nil]
  | cons e edges ih =>
    have hstep : Grouped (done ++ [e]) (addMove e.label e.target moves) :=
      { hasMove_iff := fun label q => by
          rw [hasMove_addMove_iff, hgrouped.hasMove_iff, List.mem_append, List.mem_singleton,
            Edge.mk.injEq, or_comm, eq_comm (a := e.label)]
        nodup_labels := nodup_labels_addMove hgrouped.nodup_labels
        targets_ne_nil := fun m hm => targets_ne_nil_addMove hgrouped.targets_ne_nil hm }
    rw [List.foldl_cons, List.append_cons]
    exact ih hstep

/-- The moves of a set of states group the edges that consume a symbol. -/
theorem grouped_movesFrom (nfa : Graph) (key : List Nat) :
    Grouped ((key.flatMap nfa.edges).filter fun e => e.label.first? != some Code.silent)
      (nfa.movesFrom key) := by
  have hnil : Grouped [] [] :=
    { hasMove_iff := fun label q => by simp [HasMove]
      nodup_labels := List.nodup_nil
      targets_ne_nil := fun m hm => by cases hm }
  exact hnil.foldl

/-- Among labels that act as symbols, those that consume one do not hold the silent
code. -/
theorem Symbolic.first?_bne_iff (hsym : nfa.Symbolic) {i : Nat} {e : Edge}
    (he : e ∈ nfa.edges i) :
    (e.label.first? != some Code.silent) = true ↔ Code.silent ∉ e.label := by
  rw [bne_iff_ne, not_iff_not]
  constructor
  · exact CodeSet.mem_of_first?
  · intro hsilent
    rw [hsym.silent_eq i e he hsilent]
    rfl

theorem hasMove_movesFrom_iff (hsym : nfa.Symbolic) :
    HasMove (nfa.movesFrom key) label q ↔
      ∃ p ∈ key, ⟨label, q⟩ ∈ nfa.edges p ∧ Code.silent ∉ label := by
  rw [(grouped_movesFrom nfa key).hasMove_iff, List.mem_filter, List.mem_flatMap]
  constructor
  · rintro ⟨⟨p, hp, he⟩, hfirst⟩
    exact ⟨p, hp, he, (hsym.first?_bne_iff he).mp hfirst⟩
  · rintro ⟨p, hp, he, hsilent⟩
    exact ⟨⟨p, hp, he⟩, (hsym.first?_bne_iff he).mpr hsilent⟩

/-- All targets of a move are those of edges with its label. -/
theorem mem_targets_iff (hsym : nfa.Symbolic) (hm : m ∈ nfa.movesFrom key) :
    q ∈ m.2 ↔ ∃ p ∈ key, ⟨m.1, q⟩ ∈ nfa.edges p ∧ Code.silent ∉ m.1 := by
  rw [← hasMove_movesFrom_iff hsym]
  constructor
  · intro hq
    exact ⟨m, hm, rfl, hq⟩
  · rintro ⟨m', hm', hlabel, hq⟩
    have hnodup := (grouped_movesFrom nfa key).nodup_labels
    rwa [List.inj_on_of_nodup_map hnodup hm' hm hlabel] at hq

/-- The label of a move is that of an edge which consumes a symbol. -/
theorem exists_edge_of_mem_movesFrom (hsym : nfa.Symbolic) (hm : m ∈ nfa.movesFrom key) :
    ∃ p ∈ key, ∃ q ∈ m.2, ⟨m.1, q⟩ ∈ nfa.edges p ∧ Code.silent ∉ m.1 := by
  obtain ⟨q, hq⟩ := List.exists_mem_of_ne_nil _ ((grouped_movesFrom nfa key).targets_ne_nil m hm)
  obtain ⟨p, hp, he, hsilent⟩ := (mem_targets_iff hsym hm).mp hq
  exact ⟨p, hp, q, hq, he, hsilent⟩

end Moves

/-! ## Sets of states -/

variable {nfa : Graph} {start i j p q : Nat} {e : Edge} {c : Int} {w : List Int}

/-- The states that a state of the constructed automaton stands for. -/
def members (nfa : Graph) (start i : Nat) : List Nat := (Subsets.finished nfa start).key i

theorem size_subsets : (nfa.subsets start).size = (Subsets.finished nfa start).keys.size :=
  (Subsets.progress_finished nfa start).1.numbered.size_eq

theorem getElem?_keys_finished (hi : i < (nfa.subsets start).size) :
    (Subsets.finished nfa start).keys[i]? = some (nfa.members start i) :=
  Subsets.getElem?_keys (size_subsets ▸ hi)

theorem closed_subsets : (nfa.subsets start).Closed :=
  (Subsets.progress_finished nfa start).1.numbered.closed

theorem size_subsets_pos : 0 < (nfa.subsets start).size := by
  rw [size_subsets]
  exact (Array.getElem?_eq_some_iff.mp Subsets.getElem?_finished_zero).1

/-- The first state stands for what the start leads to without input. -/
theorem members_zero : nfa.members start 0 = nfa.silentClosure [start] :=
  Option.some.inj ((getElem?_keys_finished size_subsets_pos).symm.trans
    Subsets.getElem?_finished_zero)

theorem lt_size_of_mem_members (hq : q ∈ nfa.members start i) : q < nfa.size := by
  by_cases hi : i < (nfa.subsets start).size
  · have hnum := (Subsets.progress_finished nfa start).1.numbered
    exact (hnum.isKey i _ (getElem?_keys_finished hi)).2 q hq
  · rw [members, Subsets.key, Array.getElem?_eq_none (size_subsets ▸ Nat.not_lt.mp hi)] at hq
    cases hq

/-- A state is final when one of its members is. -/
theorem isFinal_subsets_iff (hi : i < (nfa.subsets start).size) :
    (nfa.subsets start).isFinal i = true ↔ ∃ q ∈ nfa.members start i, nfa.isFinal q = true := by
  rw [subsets_eq, (Subsets.progress_finished nfa start).1.numbered.isFinal_eq i _ (getElem?_keys_finished hi),
    List.any_eq_true]

/-- Different states stand for different sets. -/
theorem eq_of_members_iff (hi : i < (nfa.subsets start).size) (hj : j < (nfa.subsets start).size)
    (h : ∀ q, q ∈ nfa.members start i ↔ q ∈ nfa.members start j) : i = j := by
  have hnum := (Subsets.progress_finished nfa start).1.numbered
  have hkey := (hnum.isKey i _ (getElem?_keys_finished hi)).1
  have hkey' := (hnum.isKey j _ (getElem?_keys_finished hj)).1
  have heq : nfa.members start i = nfa.members start j :=
    hkey.sortedLT.eq_of_mem_iff hkey'.sortedLT h
  exact hnum.injective (getElem?_keys_finished hi) (heq ▸ getElem?_keys_finished hj)

theorem map_edges_subsets (hi : i < (nfa.subsets start).size) :
    ((nfa.subsets start).edges i).map
        (fun e => (e.label, (Subsets.finished nfa start).keys[e.target]?)) =
      (nfa.movesFrom (nfa.members start i)).map fun m => (m.1, some (nfa.silentClosure m.2)) := by
  obtain ⟨hprogress, hpending⟩ := Subsets.progress_finished nfa start
  have hnot : i ∉ (Subsets.finished nfa start).pending := by
    rw [hpending]
    exact List.not_mem_nil
  exact hprogress.settled i hnot _ (getElem?_keys_finished hi)

/-- An edge follows a move of the set of its source. -/
theorem exists_move_of_mem_edges (he : e ∈ (nfa.subsets start).edges i) :
    ∃ m ∈ nfa.movesFrom (nfa.members start i),
      m.1 = e.label ∧ nfa.members start e.target = nfa.silentClosure m.2 := by
  have hmem := List.mem_map_of_mem
    (f := fun e : Edge => (e.label, (Subsets.finished nfa start).keys[e.target]?)) he
  rw [map_edges_subsets (lt_size_of_mem_edges he)] at hmem
  obtain ⟨m, hm, heq⟩ := List.mem_map.mp hmem
  obtain ⟨hlabel, hkey⟩ := Prod.ext_iff.mp heq
  have htarget := getElem?_keys_finished (closed_subsets i e he)
  exact ⟨m, hm, hlabel, Option.some.inj (htarget.symm.trans hkey.symm)⟩

/-- Every move of the set of a state is followed. -/
theorem exists_edge_of_move (hi : i < (nfa.subsets start).size) {m : CodeSet × List Nat}
    (hm : m ∈ nfa.movesFrom (nfa.members start i)) :
    ∃ e ∈ (nfa.subsets start).edges i, e.label = m.1 := by
  have hmem := List.mem_map_of_mem
    (f := fun m : CodeSet × List Nat => (m.1, some (nfa.silentClosure m.2))) hm
  rw [← map_edges_subsets hi] at hmem
  obtain ⟨e, he, heq⟩ := List.mem_map.mp hmem
  exact ⟨e, he, (Prod.ext_iff.mp heq).1⟩

theorem labels_subsets (hi : i < (nfa.subsets start).size) :
    ((nfa.subsets start).edges i).map Edge.label =
      (nfa.movesFrom (nfa.members start i)).map Prod.fst := by
  have hmap := congrArg (List.map Prod.fst) (map_edges_subsets hi)
  rwa [List.map_map, List.map_map] at hmap

/-- Every label is that of an edge which consumes a symbol. -/
theorem exists_label_of_mem_edges (hsym : nfa.Symbolic) (he : e ∈ (nfa.subsets start).edges i) :
    ∃ p, ∃ f ∈ nfa.edges p, f.label = e.label ∧ Code.silent ∉ e.label := by
  obtain ⟨m, hm, hlabel, -⟩ := exists_move_of_mem_edges he
  obtain ⟨p, -, q, -, hedge, hsilent⟩ := exists_edge_of_mem_movesFrom hsym hm
  exact ⟨p, _, hedge, hlabel, hlabel ▸ hsilent⟩

/-! ## The result is deterministic -/

/-- The result is deterministic. -/
theorem deterministic_subsets (hsym : nfa.Symbolic) : (nfa.subsets start).Deterministic where
  nonempty i e he := by
    obtain ⟨p, f, hf, hlabel, -⟩ := exists_label_of_mem_edges hsym he
    exact hlabel ▸ hsym.nonempty p f hf
  disjoint i := by
    by_cases hi : i < (nfa.subsets start).size
    · have hnodup := (grouped_movesFrom nfa (nfa.members start i)).nodup_labels
      rw [← labels_subsets hi] at hnodup
      refine (List.pairwise_map.mp hnodup).imp_of_mem fun he hf hne c ⟨hce, hcf⟩ => hne ?_
      -- Labels of the given automaton that share a code are equal.
      obtain ⟨p, e', he', hlabel, -⟩ := exists_label_of_mem_edges hsym he
      obtain ⟨q, f', hf', hlabel', -⟩ := exists_label_of_mem_edges hsym hf
      rw [← hlabel, ← hlabel']
      exact hsym.separate p q e' he' f' hf' c (hlabel ▸ hce) (hlabel' ▸ hcf)
    · rw [edges_eq_nil_of_size_le (Nat.not_lt.mp hi)]
      exact List.Pairwise.nil
  noSilent i e he := by
    obtain ⟨-, -, -, -, hsilent⟩ := exists_label_of_mem_edges hsym he
    exact hsilent

/-- Its labels act as symbols again. -/
theorem symbolic_subsets (hsym : nfa.Symbolic) : (nfa.subsets start).Symbolic where
  nonempty := (deterministic_subsets hsym).nonempty
  separate i j e he f hf c hce hcf := by
    obtain ⟨p, e', he', hlabel, -⟩ := exists_label_of_mem_edges hsym he
    obtain ⟨q, f', hf', hlabel', -⟩ := exists_label_of_mem_edges hsym hf
    rw [← hlabel, ← hlabel']
    exact hsym.separate p q e' he' f' hf' c (hlabel ▸ hce) (hlabel' ▸ hcf)
  silent_eq i e he hsilent := absurd hsilent ((deterministic_subsets hsym).noSilent i e he)

theorem inAlphabet_subsets (hsym : nfa.Symbolic) (hall : nfa.InAlphabet) :
    (nfa.subsets start).InAlphabet := by
  intro i e he c hc
  obtain ⟨p, f, hf, hlabel, -⟩ := exists_label_of_mem_edges hsym he
  exact hall p f hf c (hlabel ▸ hc)

/-- Words reach every state. -/
theorem exists_path_subsets (hsym : nfa.Symbolic) (hj : j < (nfa.subsets start).size) :
    ∃ w, (nfa.subsets start).Path 0 w j := by
  have hdet : (nfa.subsets start).Deterministic := deterministic_subsets hsym
  induction j using Nat.strong_induction_on with
  | _ j ih =>
    rcases Nat.eq_zero_or_pos j with rfl | hpos
    · exact ⟨[], Path.nil 0⟩
    · have hreached := (Subsets.progress_finished nfa start).1.reached
      obtain ⟨i, hij, e, he, rfl⟩ := hreached j hpos (size_subsets ▸ hj)
      obtain ⟨w, hpath⟩ := ih i hij (Nat.lt_trans hij hj)
      obtain ⟨c, hc⟩ := hdet.nonempty i e he
      have hne := hdet.ne_silent he hc
      exact ⟨w ++ [c], hpath.append (Path.of_edge he hc hne)⟩

/-! ## Members and paths -/

theorem mem_members_zero_iff (hclosed : nfa.Closed) (hstart : start < nfa.size) :
    q ∈ nfa.members start 0 ↔ nfa.Path start [] q := by
  have hroots : ∀ r ∈ [start], r < nfa.size := by
    intro r hr
    rwa [List.mem_singleton.mp hr]
  rw [members_zero, mem_silentClosure_iff hclosed hroots]
  simp only [List.mem_singleton, exists_eq_left]

section Language

variable (hsym : nfa.Symbolic) (hclosed : nfa.Closed)
include hsym hclosed

/-- An edge leads to the set of what its symbol leads to, and silent steps from there. -/
theorem mem_members_target_iff (he : e ∈ (nfa.subsets start).edges i) :
    q ∈ nfa.members start e.target ↔
      ∃ p ∈ nfa.members start i, ∃ r, ⟨e.label, r⟩ ∈ nfa.edges p ∧ nfa.Path r [] q := by
  obtain ⟨m, hm, hlabel, hmembers⟩ := exists_move_of_mem_edges he
  have htargets : ∀ r ∈ m.2, r < nfa.size := by
    intro r hr
    obtain ⟨p, -, hedge, -⟩ := (mem_targets_iff hsym hm).mp hr
    exact hclosed p _ hedge
  rw [hmembers, mem_silentClosure_iff hclosed htargets, ← hlabel]
  constructor
  · rintro ⟨r, hr, hpath⟩
    obtain ⟨p, hp, hedge, -⟩ := (mem_targets_iff hsym hm).mp hr
    exact ⟨p, hp, r, hedge, hpath⟩
  · rintro ⟨p, hp, r, hedge, hpath⟩
    have hsilent : Code.silent ∉ m.1 := by
      obtain ⟨-, -, -, -, hsilent⟩ := exists_label_of_mem_edges hsym he
      rwa [hlabel]
    exact ⟨r, (mem_targets_iff hsym hm).mpr ⟨p, hp, hedge, hsilent⟩, hpath⟩

variable (hstart : start < nfa.size)
include hstart

/-- The set of a state is closed under silent steps. -/
theorem mem_members_of_path_nil (hi : i < (nfa.subsets start).size)
    (hp : p ∈ nfa.members start i) (hpath : nfa.Path p [] q) : q ∈ nfa.members start i := by
  rcases Nat.eq_zero_or_pos i with rfl | hpos
  · rw [mem_members_zero_iff hclosed hstart] at hp ⊢
    exact hp.append hpath
  · have hreached := (Subsets.progress_finished nfa start).1.reached
    obtain ⟨k, -, e, he, rfl⟩ := hreached i hpos (size_subsets ▸ hi)
    rw [mem_members_target_iff hsym hclosed he] at hp ⊢
    obtain ⟨o, ho, r, hedge, hfirst⟩ := hp
    exact ⟨o, ho, r, hedge, hfirst.append hpath⟩

/-- One code leads from a set to the set of what it leads to. -/
theorem mem_members_target_iff_path (he : e ∈ (nfa.subsets start).edges i) (hc : c ∈ e.label) :
    q ∈ nfa.members start e.target ↔ ∃ p ∈ nfa.members start i, nfa.Path p [c] q := by
  have hi := lt_size_of_mem_edges he
  have hne := (deterministic_subsets hsym).ne_silent he hc
  rw [mem_members_target_iff hsym hclosed he]
  constructor
  · rintro ⟨p, hp, r, hedge, hpath⟩
    exact ⟨p, hp, Path.read hedge hc hne hpath⟩
  · rintro ⟨p, hp, hpath⟩
    obtain ⟨p', f, hf, hsilent, hcf, -, hrest⟩ := hpath.exists_edge
    obtain ⟨o, e', he', hlabel, -⟩ := exists_label_of_mem_edges hsym he
    have hsame : f.label = e.label := by
      rw [← hlabel]
      exact hsym.separate p' o f hf e' he' c hcf (hlabel ▸ hc)
    exact ⟨p', mem_members_of_path_nil hsym hclosed hstart hi hp hsilent, f.target,
      hsame ▸ hf, hrest⟩

/-- A state has an edge on every code that leads from one of its members somewhere. -/
theorem exists_edge_of_path (hi : i < (nfa.subsets start).size) (hp : p ∈ nfa.members start i)
    (hpath : nfa.Path p (c :: w) q) : ∃ e ∈ (nfa.subsets start).edges i, c ∈ e.label := by
  obtain ⟨p', f, hf, hsilent, hcf, hne, -⟩ := hpath.exists_edge
  have hp' := mem_members_of_path_nil hsym hclosed hstart hi hp hsilent
  have hnot : Code.silent ∉ f.label := by
    intro hmem
    rw [hsym.silent_eq p' f hf hmem, CodeSet.mem_silent] at hcf
    exact hne hcf
  obtain ⟨m, hm, hlabel, -⟩ := (hasMove_movesFrom_iff hsym).mpr ⟨p', hp', hf, hnot⟩
  obtain ⟨e, he, hlabel'⟩ := exists_edge_of_move hi hm
  refine ⟨e, he, ?_⟩
  rwa [hlabel', hlabel]

/-- A word leads from the set of a state to the set of what it leads to. -/
theorem mem_members_iff_of_path (hi : i < (nfa.subsets start).size)
    (hpath : (nfa.subsets start).Path i w j) :
    q ∈ nfa.members start j ↔ ∃ p ∈ nfa.members start i, nfa.Path p w q := by
  have hdet : (nfa.subsets start).Deterministic := deterministic_subsets hsym
  induction w generalizing i with
  | nil =>
    rw [hdet.path_nil_iff.mp hpath]
    constructor
    · intro hq
      exact ⟨q, hq, Path.nil q⟩
    · rintro ⟨p, hp, hnil⟩
      exact mem_members_of_path_nil hsym hclosed hstart hi hp hnil
  | cons c w ih =>
    obtain ⟨e, he, hc, -, hrest⟩ := hdet.path_cons_iff.mp hpath
    refine (ih (closed_subsets i e he) hrest).trans ?_
    constructor
    · rintro ⟨r, hr, hsecond⟩
      obtain ⟨p, hp, hfirst⟩ := (mem_members_target_iff_path hsym hclosed hstart he hc).mp hr
      exact ⟨p, hp, hfirst.append hsecond⟩
    · rintro ⟨p, hp, hboth⟩
      obtain ⟨r, hfirst, hsecond⟩ := Path.exists_of_append (u := [c]) hboth
      exact ⟨r, (mem_members_target_iff_path hsym hclosed hstart he hc).mpr ⟨p, hp, hfirst⟩,
        hsecond⟩

/-- A word that leads somewhere from a member leads somewhere from the state. -/
theorem exists_path_of_path (hi : i < (nfa.subsets start).size) (hp : p ∈ nfa.members start i)
    (hpath : nfa.Path p w q) : ∃ j, (nfa.subsets start).Path i w j := by
  have hdet : (nfa.subsets start).Deterministic := deterministic_subsets hsym
  induction w generalizing i p with
  | nil => exact ⟨i, Path.nil i⟩
  | cons c w ih =>
    obtain ⟨e, he, hc⟩ := exists_edge_of_path hsym hclosed hstart hi hp hpath
    obtain ⟨r, hfirst, hsecond⟩ := Path.exists_of_append (u := [c]) hpath
    have hr := (mem_members_target_iff_path hsym hclosed hstart he hc).mpr ⟨p, hp, hfirst⟩
    obtain ⟨j, hrest⟩ := ih (closed_subsets i e he) hr hsecond
    have hne := hdet.ne_silent he hc
    exact ⟨j, Path.read he hc hne hrest⟩

/-- A state accepts what its members accept. -/
theorem accepts_subsets_iff_members (hi : i < (nfa.subsets start).size) :
    (nfa.subsets start).Accepts i w ↔ ∃ p ∈ nfa.members start i, nfa.Accepts p w := by
  constructor
  · rintro ⟨j, hpath, hfinal⟩
    have hj := closed_subsets.lt_of_path hi hpath
    obtain ⟨q, hq, hfinal'⟩ := (isFinal_subsets_iff hj).mp hfinal
    obtain ⟨p, hp, hpath'⟩ := (mem_members_iff_of_path hsym hclosed hstart hi hpath).mp hq
    exact ⟨p, hp, q, hpath', hfinal'⟩
  · rintro ⟨p, hp, q, hpath', hfinal'⟩
    obtain ⟨j, hpath⟩ := exists_path_of_path hsym hclosed hstart hi hp hpath'
    have hj := closed_subsets.lt_of_path hi hpath
    have hq := (mem_members_iff_of_path hsym hclosed hstart hi hpath).mpr ⟨p, hp, hpath'⟩
    exact ⟨j, hpath, (isFinal_subsets_iff hj).mpr ⟨q, hq, hfinal'⟩⟩

/-- The first state accepts what the start accepts. -/
theorem accepts_subsets_iff : (nfa.subsets start).Accepts 0 w ↔ nfa.Accepts start w := by
  rw [accepts_subsets_iff_members hsym hclosed hstart size_subsets_pos]
  constructor
  · rintro ⟨p, hp, haccept⟩
    have hnil := (mem_members_zero_iff hclosed hstart).mp hp
    exact Accepts.of_path hnil haccept
  · intro haccept
    exact ⟨start, (mem_members_zero_iff hclosed hstart).mpr (Path.nil start), haccept⟩

end Language

end Graph
end Munch

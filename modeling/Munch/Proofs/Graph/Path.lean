import Mathlib.Data.List.Pairwise
import Mathlib.Data.Set.Function
import Munch.Graph.Basic
import Munch.Proofs.CodeSet.Canonical

/-!
# Paths and the words they spell

An edge can be taken on any code of its label, and without input when its label
holds the silent code.  A state accepts the words that lead from it to a final
state.  Everything said about an automaton elsewhere is said through these two
notions, so the lemmas here are the only ones that look at single steps.

Main results:

- Theorem {lit}`Graph.path_append_iff`: a path spelling two words in a row passes
  through a state between them.
- Theorem {lit}`Graph.Embeds.path_iff`: a renamed copy of a part of a graph has the
  paths of that part.
- Theorem {lit}`Graph.Deterministic.eq_of_path`: in a deterministic automaton a
  word leads to one state at most.
-/

namespace Munch

/-- The codes that words consist of: every code but the silent one. -/
def Code.IsLetter (c : Int) : Prop :=
  Code.least ≤ c ∧ c < Code.charLimit ∧ c ≠ Code.silent

/-- A finite sequence of letters. -/
def IsWord (w : List Int) : Prop :=
  ∀ c ∈ w, Code.IsLetter c

/-- The empty list is a word. -/
theorem isWord_nil : IsWord [] := by
  intro c hc
  cases hc

/-- A concatenation is a word iff both parts are. -/
theorem isWord_append {u v : List Int} : IsWord (u ++ v) ↔ IsWord u ∧ IsWord v :=
  List.forall_mem_append

/-- A word is a letter followed by a word. -/
theorem isWord_cons {c : Int} {w : List Int} : IsWord (c :: w) ↔ Code.IsLetter c ∧ IsWord w :=
  List.forall_mem_cons

/-- A list read backwards is a word iff the list is. -/
theorem isWord_reverse {w : List Int} : IsWord w.reverse ↔ IsWord w := by
  simp only [IsWord, List.mem_reverse]

/-- Characters are letters. -/
theorem isLetter_of_mem_chars {code : Int} (h : code ∈ CodeSet.chars) : Code.IsLetter code := by
  rw [CodeSet.mem_chars] at h
  unfold Code.IsLetter Code.least Code.silent
  omega

/-- A list of characters is a word. -/
theorem isWord_of_mem_chars {w : List Int} (h : ∀ c ∈ w, c ∈ CodeSet.chars) : IsWord w :=
  fun c hc => isLetter_of_mem_chars (h c hc)

namespace Graph

/-- From a state one can come to another while reading a word. -/
inductive Path (g : Graph) : Nat → List Int → Nat → Prop where
  | nil (i : Nat) : Path g i [] i
  | silent {i j : Nat} {e : Edge} {w : List Int} (he : e ∈ g.edges i)
      (hsilent : Code.silent ∈ e.label) (rest : Path g e.target w j) : Path g i w j
  | read {i j : Nat} {e : Edge} {c : Int} {w : List Int} (he : e ∈ g.edges i)
      (hc : c ∈ e.label) (hne : c ≠ Code.silent) (rest : Path g e.target w j) :
      Path g i (c :: w) j

/-- A word leads from a state to a final one. -/
def Accepts (g : Graph) (i : Nat) (w : List Int) : Prop :=
  ∃ j, g.Path i w j ∧ g.isFinal j = true

variable {g h : Graph} {i j k : Nat} {c : Int} {u v w : List Int}

/-! ## Composing and splitting paths -/

/-- Paths compose, and so do the words they spell. -/
theorem Path.append (first : g.Path i u j) (second : g.Path j v k) : g.Path i (u ++ v) k := by
  induction first with
  | nil i => exact second
  | silent he hsilent _ ih => exact Path.silent he hsilent (ih second)
  | read he hc hne _ ih => exact Path.read he hc hne (ih second)

/-- Silent edges behind a path add nothing to its word. -/
theorem Path.append_silent (first : g.Path i u j) (second : g.Path j [] k) : g.Path i u k := by
  have hpath := first.append second
  rwa [List.append_nil] at hpath

/-- One edge is a path spelling one letter. -/
theorem Path.of_edge {e : Edge} (he : e ∈ g.edges i) (hc : c ∈ e.label) (hne : c ≠ Code.silent) :
    g.Path i [c] e.target :=
  Path.read he hc hne (Path.nil _)

/-- A path spelling a concatenation passes through a state between the two parts. -/
theorem Path.exists_of_append (hpath : g.Path i (u ++ v) k) :
    ∃ j, g.Path i u j ∧ g.Path j v k := by
  generalize hw : u ++ v = w at hpath
  induction hpath generalizing u with
  | nil i =>
    obtain ⟨rfl, rfl⟩ := List.append_eq_nil_iff.mp hw
    exact ⟨i, Path.nil i, Path.nil i⟩
  | silent he hsilent rest ih =>
    obtain ⟨j, hfirst, hsecond⟩ := ih hw
    exact ⟨j, Path.silent he hsilent hfirst, hsecond⟩
  | read he hc hne rest ih =>
    cases u with
    | nil =>
      obtain rfl : v = _ := hw
      exact ⟨_, Path.nil _, Path.read he hc hne rest⟩
    | cons d u =>
      obtain ⟨rfl, htail⟩ := List.cons_eq_cons.mp hw
      obtain ⟨j, hfirst, hsecond⟩ := ih htail
      exact ⟨j, Path.read he hc hne hfirst, hsecond⟩

/-- A path spelling two words in a row passes through a state between them. -/
theorem path_append_iff : g.Path i (u ++ v) k ↔ ∃ j, g.Path i u j ∧ g.Path j v k := by
  constructor
  · exact Path.exists_of_append
  · rintro ⟨j, hfirst, hsecond⟩
    exact hfirst.append hsecond

/-- More edges keep every path. -/
theorem Path.mono (hedges : ∀ i, ∀ e ∈ g.edges i, e ∈ h.edges i) (hpath : g.Path i w j) :
    h.Path i w j := by
  induction hpath with
  | nil i => exact Path.nil i
  | silent he hsilent _ ih => exact Path.silent (hedges _ _ he) hsilent ih
  | read he hc hne _ ih => exact Path.read (hedges _ _ he) hc hne ih

/-- A path that reads a letter takes some edge on it, after and before steps without
input. -/
theorem Path.exists_edge (hpath : g.Path i (c :: w) k) :
    ∃ j, ∃ e ∈ g.edges j, g.Path i [] j ∧ c ∈ e.label ∧ c ≠ Code.silent ∧
      g.Path e.target w k := by
  generalize hword : c :: w = word at hpath
  induction hpath with
  | nil i => cases hword
  | silent he hsilent rest ih =>
    obtain ⟨j, f, hf, hfirst, hc, hne, hsecond⟩ := ih hword
    exact ⟨j, f, hf, Path.silent he hsilent hfirst, hc, hne, hsecond⟩
  | read he hc hne rest ih =>
    obtain ⟨rfl, rfl⟩ := List.cons_eq_cons.mp hword
    exact ⟨_, _, he, Path.nil _, hc, hne, rest⟩

/-- A path in front of an accepted word gives an accepted word. -/
theorem Accepts.of_path (hpath : g.Path i u j) (hv : g.Accepts j v) : g.Accepts i (u ++ v) := by
  obtain ⟨k, hsecond, hfinal⟩ := hv
  exact ⟨k, hpath.append hsecond, hfinal⟩

/-- A state accepts a concatenation iff a path spelling the first part leads to a state that accepts
the second. -/
theorem accepts_append_iff : g.Accepts i (u ++ v) ↔ ∃ j, g.Path i u j ∧ g.Accepts j v := by
  constructor
  · rintro ⟨k, hpath, hfinal⟩
    obtain ⟨j, hfirst, hsecond⟩ := hpath.exists_of_append
    exact ⟨j, hfirst, k, hsecond, hfinal⟩
  · rintro ⟨j, hfirst, haccept⟩
    exact Accepts.of_path hfirst haccept

/-- Nothing can be read from a state without edges. -/
theorem Path.eq_of_edges_eq_nil (hpath : g.Path i w j) (hedges : g.edges i = []) :
    w = [] ∧ j = i := by
  cases hpath with
  | nil i => exact ⟨rfl, rfl⟩
  | silent he => simp [hedges] at he
  | read he => simp [hedges] at he

/-! ## Moves -/

/-- An edge leads from a state to another on a code. -/
def Moves (g : Graph) (i : Nat) (c : Int) (j : Nat) : Prop :=
  ∃ e ∈ g.edges i, c ∈ e.label ∧ e.target = j

/-- A graph whose moves another has too keeps its paths there. -/
theorem Path.of_moves (hmoves : ∀ i j, ∀ c ∈ CodeSet.all, g.Moves i c j → h.Moves i c j)
    (hw : IsWord w) (hpath : g.Path i w j) : h.Path i w j := by
  induction hpath with
  | nil i => exact Path.nil i
  | silent he hsilent _ ih =>
    have hmem : Code.silent ∈ CodeSet.all := by decide
    obtain ⟨f, hf, hsilent', htarget⟩ := hmoves _ _ _ hmem ⟨_, he, hsilent, rfl⟩
    exact Path.silent hf hsilent' (htarget ▸ ih hw)
  | read he hc hne _ ih =>
    obtain ⟨⟨hlow, hhigh, -⟩, hw⟩ := isWord_cons.mp hw
    obtain ⟨f, hf, hc', htarget⟩ :=
      hmoves _ _ _ (CodeSet.mem_all.mpr ⟨hlow, hhigh⟩) ⟨_, he, hc, rfl⟩
    exact Path.read hf hc' hne (htarget ▸ ih hw)

/-- Automata with the same moves have the same paths, however their edges are cut. -/
theorem path_congr_of_moves (hmoves : ∀ i j, ∀ c ∈ CodeSet.all, (h.Moves i c j ↔ g.Moves i c j))
    (hw : IsWord w) : h.Path i w j ↔ g.Path i w j := by
  constructor
  · exact Path.of_moves (fun i j c hc => (hmoves i j c hc).mp) hw
  · exact Path.of_moves (fun i j c hc => (hmoves i j c hc).mpr) hw

/-- Graphs with the same moves and the same final states accept the same words. -/
theorem accepts_congr_of_moves
    (hmoves : ∀ i j, ∀ c ∈ CodeSet.all, (h.Moves i c j ↔ g.Moves i c j))
    (hfinal : ∀ i, h.isFinal i = g.isFinal i) (hw : IsWord w) : h.Accepts i w ↔ g.Accepts i w := by
  simp only [Accepts, path_congr_of_moves hmoves hw, hfinal]

/-! ## Closed parts -/

/-- No edge leads out of the part. -/
def IsPart (g : Graph) (part : Set Nat) : Prop :=
  ∀ i ∈ part, ∀ e ∈ g.edges i, e.target ∈ part

/-- No path leaves a part. -/
theorem IsPart.mem_of_path {part : Set Nat} (hpart : g.IsPart part) (hi : i ∈ part)
    (hpath : g.Path i w j) : j ∈ part := by
  induction hpath with
  | nil i => exact hi
  | silent he _ _ ih => exact ih (hpart _ hi _ he)
  | read he _ _ _ ih => exact ih (hpart _ hi _ he)

/-- Nothing but the empty word leads to a state without incoming edges. -/
theorem IsPart.eq_nil_of_path {part : Set Nat} (hpart : g.IsPart part)
    (hsource : ∀ i ∈ part, ∀ e ∈ g.edges i, e.target ≠ j) (hi : i ∈ part)
    (hpath : g.Path i w j) : i = j ∧ w = [] := by
  induction hpath with
  | nil i => exact ⟨rfl, rfl⟩
  | silent he _ _ ih => exact absurd (ih hsource (hpart _ hi _ he)).1 (hsource _ hi _ he)
  | read he _ _ _ ih => exact absurd (ih hsource (hpart _ hi _ he)).1 (hsource _ hi _ he)

/-- Where no edge leads to the first state, only the empty word does. -/
theorem Path.pos_of_ne_nil (htarget : ∀ k, ∀ e ∈ g.edges k, 0 < e.target) (hw : w ≠ [])
    (hpath : g.Path i w j) : 0 < j := by
  have hpart : g.IsPart {k | 0 < k} := fun k _ e he => htarget k e he
  cases hpath with
  | nil => exact absurd rfl hw
  | silent he _ rest => exact hpart.mem_of_path (htarget _ _ he) rest
  | read he _ _ rest => exact hpart.mem_of_path (htarget _ _ he) rest

/-- Only a state of the graph has edges. -/
theorem lt_size_of_mem_edges {e : Edge} (he : e ∈ g.edges i) : i < g.size := by
  by_contra hle
  rw [edges_eq_nil_of_size_le (Nat.not_lt.mp hle)] at he
  cases he

/-- Two parts together are a part. -/
theorem IsPart.union {part other : Set Nat} (hpart : g.IsPart part) (hother : g.IsPart other) :
    g.IsPart (part ∪ other) := by
  rintro i (hi | hi) e he
  · exact Or.inl (hpart i hi e he)
  · exact Or.inr (hother i hi e he)

/-- A part stays one when a state is added. -/
theorem IsPart.addState {part : Set Nat} (hpart : g.IsPart part) (b : Bool) :
    (g.addState b).IsPart part :=
  fun i hi e he => hpart i hi e (edges_addState g b i ▸ he)

/-- A part stays one when no edge out of it is added. -/
theorem IsPart.addEdge {part : Set Nat} {label : CodeSet} (hpart : g.IsPart part)
    (hinto : i ∈ part → j ∈ part) : (g.addEdge i label j).IsPart part := by
  intro k hk e he
  rcases mem_edges_of_mem_addEdge he with hold | ⟨rfl, rfl⟩
  · exact hpart k hk e hold
  · exact hinto hk

/-- A path that ends at a state has started at one. -/
theorem lt_size_of_path (hpath : g.Path i w j) (hj : j < g.size) : i < g.size := by
  cases hpath with
  | nil => exact hj
  | silent he _ _ => exact lt_size_of_mem_edges he
  | read he _ _ _ => exact lt_size_of_mem_edges he

/-- Graphs with the same flags and edges are equal. -/
theorem eq_of_edges_eq (hsize : h.size = g.size) (hfinal : ∀ i, h.isFinal i = g.isFinal i)
    (hedges : ∀ i, h.edges i = g.edges i) : h = g := by
  obtain ⟨as⟩ := h
  obtain ⟨bs⟩ := g
  congr 1
  refine Array.ext hsize fun i hi hi' => ?_
  have hflag := hfinal i
  have hlist := hedges i
  simp only [isFinal, edges, Array.getElem?_eq_getElem hi, Array.getElem?_eq_getElem hi',
    Option.map_some, Option.getD_some] at hflag hlist
  cases hcase : as[i]
  cases hcase' : bs[i]
  simp_all

/-- Only a state of the graph is final. -/
theorem lt_size_of_isFinal (hfinal : g.isFinal i = true) : i < g.size := by
  by_contra hle
  have hnone : g.states[i]? = none := Array.getElem?_eq_none (Nat.not_lt.mp hle)
  rw [isFinal, hnone] at hfinal
  cases hfinal

/-- Only the states there are need to be looked at. -/
theorem closed_iff : g.Closed ↔ ∀ i < g.size, ∀ e ∈ g.edges i, e.target < g.size := by
  constructor
  · intro hclosed i _
    exact hclosed i
  · intro h i e he
    exact h i (lt_size_of_mem_edges he) e he

instance : Decidable g.Closed :=
  decidable_of_iff _ closed_iff.symm

/-- The edges of a closed graph stay among its states. -/
theorem Closed.isPart (hclosed : g.Closed) : g.IsPart {i | i < g.size} :=
  fun i _ e he => hclosed i e he

/-- A graph stays closed when a state is added. -/
theorem Closed.addState (hclosed : g.Closed) (b : Bool) : (g.addState b).Closed := by
  intro i e he
  rw [edges_addState] at he
  rw [size_addState]
  exact Nat.lt_succ_of_lt (hclosed i e he)

/-- A graph stays closed under an edge to one of its states. -/
theorem Closed.addEdge (hclosed : g.Closed) (hj : j < g.size) (s : Nat) (label : CodeSet) :
    (g.addEdge s label j).Closed := by
  intro i e he
  rw [size_addEdge]
  rcases mem_edges_of_mem_addEdge he with hold | ⟨-, rfl⟩
  · exact hclosed i e hold
  · exact hj

/-- A path in a closed graph stays among its states. -/
theorem Closed.lt_of_path (hclosed : g.Closed) (hi : i < g.size) (hpath : g.Path i w j) :
    j < g.size :=
  hclosed.isPart.mem_of_path hi hpath

/-- Labels hold codes only. -/
def InAlphabet (g : Graph) : Prop :=
  ∀ i, ∀ e ∈ g.edges i, ∀ c ∈ e.label, c ∈ CodeSet.all

/-- Paths of a graph over the alphabet spell words. -/
theorem InAlphabet.isWord_of_path (hall : g.InAlphabet) (hpath : g.Path i w j) : IsWord w := by
  induction hpath with
  | nil i => exact isWord_nil
  | silent _ _ _ ih => exact ih
  | read he hc hne _ ih =>
    have hmem := CodeSet.mem_all.mp (hall _ _ he _ hc)
    exact isWord_cons.mpr ⟨⟨hmem.1, hmem.2, hne⟩, ih⟩

/-! ## Copies of parts -/

/-- A part of one graph appears in another under new names of its states. -/
structure Embeds (g h : Graph) (name : Nat → Nat) (part : Set Nat) : Prop where
  closed : g.IsPart part
  edges_eq : ∀ i ∈ part, h.edges (name i) = (g.edges i).map fun e => ⟨e.label, name e.target⟩

namespace Embeds

variable {name : Nat → Nat} {part : Set Nat}

/-- An embedding carries paths over. -/
theorem path (hembeds : Embeds g h name part) (hi : i ∈ part) (hpath : g.Path i w j) :
    h.Path (name i) w (name j) := by
  induction hpath with
  | nil i => exact Path.nil _
  | @silent i j e w he hsilent rest ih =>
    have hmem : ⟨e.label, name e.target⟩ ∈ h.edges (name i) := by
      rw [hembeds.edges_eq i hi]
      exact List.mem_map_of_mem he
    exact Path.silent hmem hsilent (ih (hembeds.closed i hi e he))
  | @read i j e c w he hc hne rest ih =>
    have hmem : ⟨e.label, name e.target⟩ ∈ h.edges (name i) := by
      rw [hembeds.edges_eq i hi]
      exact List.mem_map_of_mem he
    exact Path.read hmem hc hne (ih (hembeds.closed i hi e he))

/-- Every path of the copy is that of a path of the part. -/
theorem exists_of_path (hembeds : Embeds g h name part) (hi : i ∈ part)
    (hpath : h.Path (name i) w k) : ∃ j ∈ part, name j = k ∧ g.Path i w j := by
  generalize hstart : name i = start at hpath
  induction hpath generalizing i with
  | nil start => exact ⟨i, hi, hstart, Path.nil i⟩
  | silent hf hsilent rest ih =>
    subst hstart
    rw [hembeds.edges_eq i hi] at hf
    obtain ⟨e, he, rfl⟩ := List.mem_map.mp hf
    obtain ⟨j, hj, hname, hpath⟩ := ih (hembeds.closed i hi e he) rfl
    exact ⟨j, hj, hname, Path.silent he hsilent hpath⟩
  | read hf hc hne rest ih =>
    subst hstart
    rw [hembeds.edges_eq i hi] at hf
    obtain ⟨e, he, rfl⟩ := List.mem_map.mp hf
    obtain ⟨j, hj, hname, hpath⟩ := ih (hembeds.closed i hi e he) rfl
    exact ⟨j, hj, hname, Path.read he hc hne hpath⟩

/-- A copy under different names has the paths of the part. -/
theorem path_iff (hembeds : Embeds g h name part) (hname : Set.InjOn name part)
    (hi : i ∈ part) (hj : j ∈ part) : h.Path (name i) w (name j) ↔ g.Path i w j := by
  constructor
  · intro hpath
    obtain ⟨k, hk, heq, hpath'⟩ := hembeds.exists_of_path hi hpath
    rwa [← hname hk hj heq]
  · exact hembeds.path hi

/-- A copy that keeps the final flags accepts the same words. -/
theorem accepts_iff (hembeds : Embeds g h name part)
    (hfinal : ∀ i ∈ part, h.isFinal (name i) = g.isFinal i) (hi : i ∈ part) :
    h.Accepts (name i) w ↔ g.Accepts i w := by
  constructor
  · rintro ⟨k, hpath, hk⟩
    obtain ⟨j, hj, rfl, hpath'⟩ := hembeds.exists_of_path hi hpath
    exact ⟨j, hpath', (hfinal j hj).symm.trans hk⟩
  · rintro ⟨j, hpath, hj⟩
    have hmem := hembeds.closed.mem_of_path hi hpath
    exact ⟨name j, hembeds.path hi hpath, (hfinal j hmem).trans hj⟩

end Embeds

/-- A part whose edges stay the same is a copy of itself. -/
theorem embeds_id {part : Set Nat} (hpart : g.IsPart part)
    (hedges : ∀ i ∈ part, h.edges i = g.edges i) : Embeds g h id part where
  closed := hpart
  edges_eq i hi := by
    rw [id, hedges i hi]
    exact (List.map_id _).symm

/-- Changes outside a closed part change no path in it. -/
theorem path_congr {part : Set Nat} (hpart : g.IsPart part)
    (hedges : ∀ i ∈ part, h.edges i = g.edges i) (hi : i ∈ part) :
    h.Path i w j ↔ g.Path i w j := by
  have hembeds := embeds_id hpart hedges
  constructor
  · intro hpath
    obtain ⟨k, -, rfl, hpath'⟩ := hembeds.exists_of_path hi hpath
    exact hpath'
  · exact hembeds.path hi

/-- The paths depend on the edges alone. -/
theorem path_congr_of_edges (hedges : ∀ i, h.edges i = g.edges i) :
    h.Path i w j ↔ g.Path i w j :=
  path_congr (fun _ _ _ _ => Set.mem_univ _) (fun i _ => hedges i) (Set.mem_univ i)

/-! ## Deterministic automata -/

/-- Every state has at most one edge for a code, and none without input. -/
structure Deterministic (g : Graph) : Prop where
  nonempty : ∀ i, ∀ e ∈ g.edges i, ∃ c, c ∈ e.label
  disjoint : ∀ i, (g.edges i).Pairwise fun e f => ∀ c, ¬(c ∈ e.label ∧ c ∈ f.label)
  noSilent : ∀ i, ∀ e ∈ g.edges i, Code.silent ∉ e.label

namespace Deterministic

/-- Two edges of a state that share a code are the same. -/
theorem edge_eq (hdet : g.Deterministic) {e f : Edge} (he : e ∈ g.edges i) (hf : f ∈ g.edges i)
    (hce : c ∈ e.label) (hcf : c ∈ f.label) : e = f := by
  by_contra hne
  have hsymm : Std.Symm fun e f : Edge => ∀ c, ¬(c ∈ e.label ∧ c ∈ f.label) :=
    ⟨fun e f hef c hc => hef c hc.symm⟩
  exact (hdet.disjoint i).forall he hf hne c ⟨hce, hcf⟩

/-- Every code of a label is read. -/
theorem ne_silent (hdet : g.Deterministic) {e : Edge} (he : e ∈ g.edges i) (hc : c ∈ e.label) :
    c ≠ Code.silent := by
  rintro rfl
  exact hdet.noSilent i e he hc

/-- In a deterministic graph the empty word leads nowhere else. -/
theorem path_nil_iff (hdet : g.Deterministic) : g.Path i [] j ↔ j = i := by
  constructor
  · intro hpath
    cases hpath with
    | nil i => rfl
    | silent he hsilent => exact absurd hsilent (hdet.noSilent _ _ he)
  · rintro rfl
    exact Path.nil _

/-- In a deterministic graph a word begins with the edge of its first letter. -/
theorem path_cons_iff (hdet : g.Deterministic) :
    g.Path i (c :: w) k ↔
      ∃ e ∈ g.edges i, c ∈ e.label ∧ c ≠ Code.silent ∧ g.Path e.target w k := by
  constructor
  · intro hpath
    obtain ⟨j, e, he, hnil, hrest⟩ := hpath.exists_edge
    obtain rfl := hdet.path_nil_iff.mp hnil
    exact ⟨e, he, hrest⟩
  · rintro ⟨e, he, hc, hne, hrest⟩
    exact Path.read he hc hne hrest

/-- In a deterministic automaton a word leads to one state at most. -/
theorem eq_of_path (hdet : g.Deterministic) (hj : g.Path i w j) (hk : g.Path i w k) : j = k := by
  induction w generalizing i with
  | nil => rw [hdet.path_nil_iff.mp hj, hdet.path_nil_iff.mp hk]
  | cons c w ih =>
    obtain ⟨e, he, hce, -, hrest⟩ := hdet.path_cons_iff.mp hj
    obtain ⟨f, hf, hcf, -, hrest'⟩ := hdet.path_cons_iff.mp hk
    obtain rfl := hdet.edge_eq he hf hce hcf
    exact ih hrest hrest'

/-- A deterministic graph accepts the empty word iff the state is final. -/
theorem accepts_nil_iff (hdet : g.Deterministic) : g.Accepts i [] ↔ g.isFinal i = true := by
  simp only [Accepts, hdet.path_nil_iff, exists_eq_left]

/-- What a state accepts after a word is what the state reached by the word accepts. -/
theorem accepts_append_iff (hdet : g.Deterministic) (hpath : g.Path i u j) :
    g.Accepts i (u ++ v) ↔ g.Accepts j v := by
  constructor
  · intro haccept
    obtain ⟨k, hk, haccept⟩ := Graph.accepts_append_iff.mp haccept
    rwa [hdet.eq_of_path hpath hk]
  · exact Accepts.of_path hpath

end Deterministic

end Graph
end Munch

import Munch.Graph.Minimal
import Munch.Proofs.Alphabet
import Munch.Proofs.Graph.Normal

/-!
# Cut labels are symbols

After the edges of an automaton have been cut, two labels are equal or have no code
in common, and a label that holds the silent code holds nothing else.  This is what
subset construction needs when it takes equality of labels for equality of symbols.

Main results:

- Theorem {lit}`Graph.symbolic_cutEdges`: cut labels act as symbols.
- Theorem {lit}`Graph.accepts_cutEdges_iff`: cutting edges changes no language.
-/

namespace Munch
namespace Graph

/-- Labels act as symbols: they are not empty, any two of them are equal or have no
code in common, and the silent code stands alone. -/
structure Symbolic (g : Graph) : Prop where
  nonempty : ∀ i, ∀ e ∈ g.edges i, ∃ c, c ∈ e.label
  separate : ∀ i j, ∀ e ∈ g.edges i, ∀ f ∈ g.edges j, ∀ c,
    c ∈ e.label → c ∈ f.label → e.label = f.label
  silent_eq : ∀ i, ∀ e ∈ g.edges i, Code.silent ∈ e.label → e.label = CodeSet.silent

variable {g : Graph} {root i j : Nat} {e : Edge} {c : Int} {w : List Int}

/-- The labels that are cut are those of the states that can be reached. -/
theorem mem_labelsFrom {f : Edge} (hi : i ∈ g.reachable root) (hf : f ∈ g.edges i) :
    f.label ∈ g.labelsFrom root :=
  List.mem_flatMap.mpr ⟨i, hi, List.mem_map_of_mem hf⟩

/-- Cutting edges changes one state after the other. -/
theorem cutEdges_eq :
    g.cutEdges root = (g.reachable root).foldl
      (fun r i => r.mapEdges i (List.flatMap (cutEdge (Alphabet.blocks (g.labelsFrom root))))) g :=
  rfl

/-- Cutting edges leaves the states. -/
@[simp]
theorem size_cutEdges : (g.cutEdges root).size = g.size := by
  rw [cutEdges_eq, size_foldl_mapEdges]

@[simp]
theorem isFinal_cutEdges : (g.cutEdges root).isFinal i = g.isFinal i := by
  rw [cutEdges_eq, isFinal_foldl_mapEdges]

/-- It leaves the edges of states that cannot be reached. -/
theorem edges_cutEdges_of_not_mem (hi : i ∉ g.reachable root) :
    (g.cutEdges root).edges i = g.edges i := by
  rw [cutEdges_eq, edges_foldl_mapEdges _ nodup_reachable, if_neg fun h => hi h.1]

/-- An edge that was cut becomes one edge for each block inside its label. -/
theorem mem_edges_cutEdges_iff (hi : i ∈ g.reachable root) :
    e ∈ (g.cutEdges root).edges i ↔
      ∃ f ∈ g.edges i, e.target = f.target ∧
        e.label ∈ Alphabet.blocks (g.labelsFrom root) ∧ ∀ c ∈ e.label, c ∈ f.label := by
  rw [cutEdges_eq, edges_foldl_mapEdges _ nodup_reachable,
    if_pos ⟨hi, lt_size_of_mem_reachableFrom hi⟩]
  have hcut := Alphabet.isCut_blocks (g.labelsFrom root)
  constructor
  · intro he
    obtain ⟨f, hf, hcutEdge⟩ := List.mem_flatMap.mp he
    obtain ⟨piece, hpiece, rfl⟩ := List.mem_map.mp hcutEdge
    have hlabel := List.mem_cons_of_mem CodeSet.silent (mem_labelsFrom hi hf)
    exact ⟨f, hf, rfl, (hcut.mem_pieces_iff hlabel).mp hpiece⟩
  · rintro ⟨f, hf, htarget, hpiece⟩
    have hlabel := List.mem_cons_of_mem CodeSet.silent (mem_labelsFrom hi hf)
    refine List.mem_flatMap.mpr ⟨f, hf, List.mem_map.mpr ⟨e.label, ?_, ?_⟩⟩
    · exact (hcut.mem_pieces_iff hlabel).mpr hpiece
    · rw [← htarget]

/-- Cutting edges keeps every move on a code. -/
theorem moves_cutEdges_iff (hc : c ∈ CodeSet.all) :
    (g.cutEdges root).Moves i c j ↔ g.Moves i c j := by
  by_cases hi : i ∈ g.reachable root
  · constructor
    · rintro ⟨e, he, hce, rfl⟩
      obtain ⟨f, hf, htarget, -, hsub⟩ := (mem_edges_cutEdges_iff hi).mp he
      exact ⟨f, hf, hsub c hce, htarget.symm⟩
    · rintro ⟨f, hf, hcf, rfl⟩
      have hcut := Alphabet.isCut_blocks (g.labelsFrom root)
      have hlabel := List.mem_cons_of_mem CodeSet.silent (mem_labelsFrom hi hf)
      obtain ⟨part, hpart, hmem⟩ := hcut.exists_mem_pieces hlabel hcf hc
      have hblock := (hcut.mem_pieces_iff hlabel).mp hpart
      exact ⟨⟨part, f.target⟩, (mem_edges_cutEdges_iff hi).mpr ⟨f, hf, rfl, hblock⟩, hmem, rfl⟩
  · rw [Moves, Moves, edges_cutEdges_of_not_mem hi]

/-- Cutting edges changes no language. -/
theorem accepts_cutEdges_iff (hw : IsWord w) :
    (g.cutEdges root).Accepts i w ↔ g.Accepts i w :=
  accepts_congr_of_moves (fun _ _ _ hc => moves_cutEdges_iff hc) (fun _ => isFinal_cutEdges) hw

section Reachable

variable (hreach : ∀ i < g.size, i ∈ g.reachable root)
include hreach

/-- Every edge of a graph that was cut as a whole is a piece of an edge. -/
theorem exists_of_mem_edges_cutEdges (he : e ∈ (g.cutEdges root).edges i) :
    ∃ f ∈ g.edges i, e.target = f.target ∧
      e.label ∈ Alphabet.blocks (g.labelsFrom root) ∧ ∀ c ∈ e.label, c ∈ f.label := by
  have hi : i < g.size := by
    have hlt := lt_size_of_mem_edges he
    rwa [size_cutEdges] at hlt
  exact (mem_edges_cutEdges_iff (hreach i hi)).mp he

/-- It leaves the targets. -/
theorem closed_cutEdges (hclosed : g.Closed) : (g.cutEdges root).Closed := by
  intro i e he
  obtain ⟨f, hf, htarget, -⟩ := exists_of_mem_edges_cutEdges hreach he
  rw [size_cutEdges, htarget]
  exact hclosed i f hf

/-- It leaves the alphabet. -/
theorem inAlphabet_cutEdges : (g.cutEdges root).InAlphabet := by
  intro i e he c hc
  obtain ⟨f, -, -, hblock, -⟩ := exists_of_mem_edges_cutEdges hreach he
  exact (Alphabet.isCut_blocks _).within e.label hblock c hc

/-- Cut labels act as symbols. -/
theorem symbolic_cutEdges : (g.cutEdges root).Symbolic where
  nonempty i e he := by
    obtain ⟨f, -, -, hblock, -⟩ := exists_of_mem_edges_cutEdges hreach he
    exact (Alphabet.isCut_blocks _).nonempty e.label hblock
  separate i j e he f hf c hce hcf := by
    obtain ⟨-, -, -, hblock, -⟩ := exists_of_mem_edges_cutEdges hreach he
    obtain ⟨-, -, -, hblock', -⟩ := exists_of_mem_edges_cutEdges hreach hf
    exact (Alphabet.isCut_blocks _).disjoint e.label hblock f.label hblock' c hce hcf
  silent_eq i e he hsilent := by
    obtain ⟨f, -, -, hblock, -⟩ := exists_of_mem_edges_cutEdges hreach he
    exact Alphabet.eq_silent_of_mem_blocks hblock hsilent

end Reachable

end Graph
end Munch

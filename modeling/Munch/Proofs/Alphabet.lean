import Munch.Alphabet
import Munch.Proofs.CodeSet.Canonical

/-!
# Blocks of the alphabet

Refining the alphabet by some sets cuts it into blocks without common codes, and
every one of the sets is a union of blocks.  The pieces of such a set are then
blocks themselves, so two pieces, of the same or of different sets, are equal or
have no code in common.

Main results:

- Theorem {lit}`Alphabet.isCut_blocks`: what the blocks of some sets are.
- Theorem {lit}`Alphabet.IsCut.mem_pieces_iff`: the pieces of a set are the blocks
  inside it.
- Theorem {lit}`Alphabet.IsCut.exists_mem_pieces`: the pieces of a set have all its
  codes.
-/

namespace Munch
namespace Alphabet

variable {blocks sets done : List CodeSet} {s block part : CodeSet} {c : Int}

/-- The blocks are a partition of all codes, and every given set is a union of
blocks. -/
structure IsCut (sets blocks : List CodeSet) : Prop where
  covers : ∀ c ∈ CodeSet.all, ∃ block ∈ blocks, c ∈ block
  within : ∀ block ∈ blocks, ∀ c ∈ block, c ∈ CodeSet.all
  nonempty : ∀ block ∈ blocks, ∃ c, c ∈ block
  disjoint : ∀ block ∈ blocks, ∀ other ∈ blocks, ∀ c, c ∈ block → c ∈ other → block = other
  uniform : ∀ s ∈ sets, ∀ block ∈ blocks, ∀ c ∈ block, c ∈ s → ∀ d ∈ block, d ∈ s

/-- A part of a block is what the block has inside a set, or outside it. -/
theorem mem_refine_iff :
    part ∈ refine blocks s ↔
      ∃ block ∈ blocks, (part = block.diff s ∨ part = block.inter s) ∧ ∃ c, c ∈ part := by
  simp only [refine, cut, List.mem_flatMap, List.mem_filter, List.mem_cons, List.not_mem_nil,
    or_false, Bool.not_eq_true', CodeSet.isEmpty_eq_false_iff]

theorem isCut_nil : IsCut [] [CodeSet.all] where
  covers c hc := ⟨CodeSet.all, List.mem_singleton_self _, hc⟩
  within block hblock c hc := by rwa [List.mem_singleton.mp hblock] at hc
  nonempty block hblock := by
    rw [List.mem_singleton.mp hblock]
    exact ⟨0, by decide⟩
  disjoint block hblock other hother c _ _ := by
    rw [List.mem_singleton.mp hblock, List.mem_singleton.mp hother]
  uniform s hs := by cases hs

/-- A part of a block has codes of that block only, and lies on one side of the set. -/
theorem exists_block_of_mem_refine (hpart : part ∈ refine blocks s) :
    ∃ block ∈ blocks, (∀ c ∈ part, c ∈ block) ∧
      ((∀ c, c ∈ part ↔ c ∈ block ∧ c ∉ s) ∨ (∀ c, c ∈ part ↔ c ∈ block ∧ c ∈ s)) := by
  obtain ⟨block, hblock, hside, -⟩ := mem_refine_iff.mp hpart
  refine ⟨block, hblock, ?_⟩
  rcases hside with rfl | rfl
  · exact ⟨fun c hc => (CodeSet.mem_diff.mp hc).1, Or.inl fun c => CodeSet.mem_diff⟩
  · exact ⟨fun c hc => (CodeSet.mem_inter.mp hc).1, Or.inr fun c => CodeSet.mem_inter⟩

/-- Refining by one more set keeps a cut, now also along that set. -/
theorem IsCut.refine (hcut : IsCut sets blocks) (s : CodeSet) :
    IsCut (s :: sets) (refine blocks s) where
  covers c hc := by
    obtain ⟨block, hblock, hmem⟩ := hcut.covers c hc
    exact exists_mem_refine hblock hmem
  within part hpart c hc := by
    obtain ⟨block, hblock, hsub, -⟩ := exists_block_of_mem_refine hpart
    exact hcut.within block hblock c (hsub c hc)
  nonempty part hpart := by
    obtain ⟨-, -, -, hmem⟩ := mem_refine_iff.mp hpart
    exact hmem
  disjoint part hpart other hother c hc hc' := by
    obtain ⟨block, hblock, hsub, hside⟩ := exists_block_of_mem_refine hpart
    obtain ⟨block', hblock', hsub', hside'⟩ := exists_block_of_mem_refine hother
    obtain rfl := hcut.disjoint block hblock block' hblock' c (hsub c hc) (hsub' c hc')
    refine CodeSet.eq_of_forall_mem_iff fun d => ?_
    rcases hside with hout | hin
    · rcases hside' with hout' | hin'
      · rw [hout d, hout' d]
      · exact absurd ((hin' c).mp hc').2 ((hout c).mp hc).2
    · rcases hside' with hout' | hin'
      · exact absurd ((hin c).mp hc).2 ((hout' c).mp hc').2
      · rw [hin d, hin' d]
  uniform t ht part hpart c hc hct d hd := by
    obtain ⟨block, hblock, hsub, hside⟩ := exists_block_of_mem_refine hpart
    rcases List.mem_cons.mp ht with rfl | ht
    · rcases hside with hout | hin
      · exact absurd hct ((hout c).mp hc).2
      · exact ((hin d).mp hd).2
    · exact hcut.uniform t ht block hblock c (hsub c hc) hct d (hsub d hd)

/-- What refining by one more set keeps holds after refining by several. -/
theorem foldl_refine {P : List CodeSet → List CodeSet → Prop}
    (hrefine : ∀ done blocks s, P done blocks → P (s :: done) (refine blocks s))
    (h : P done blocks) (sets : List CodeSet) :
    P (sets.reverse ++ done) (sets.foldl refine blocks) := by
  induction sets generalizing done blocks with
  | nil => exact h
  | cons s sets ih =>
    rw [List.foldl_cons, List.reverse_cons, List.append_assoc]
    exact ih (hrefine done blocks s h)

/-- Refining by one set after another keeps a cut. -/
theorem IsCut.foldl (hcut : IsCut done blocks) (sets : List CodeSet) :
    IsCut (sets.reverse ++ done) (sets.foldl Alphabet.refine blocks) :=
  foldl_refine (fun _ _ s h => h.refine s) hcut sets

/-- What the blocks of some sets are: a cut of all codes along each of the sets and
along the silent code. -/
theorem isCut_blocks (sets : List CodeSet) :
    IsCut (CodeSet.silent :: sets) (Alphabet.blocks sets) := by
  have hcut := isCut_nil.foldl (CodeSet.silent :: sets.eraseDups)
  exact
    { covers := hcut.covers
      within := hcut.within
      nonempty := hcut.nonempty
      disjoint := hcut.disjoint
      uniform := by
        intro s hs
        refine hcut.uniform s ?_
        rw [List.append_nil, List.mem_reverse]
        rcases List.mem_cons.mp hs with rfl | hs
        · exact List.mem_cons_self
        · exact List.mem_cons_of_mem _ (List.mem_eraseDups.mpr hs) }

namespace IsCut

/-- The pieces of a set that was cut along are the blocks inside it. -/
theorem mem_pieces_iff (hcut : IsCut sets blocks) (hs : s ∈ sets) :
    part ∈ pieces blocks s ↔ part ∈ blocks ∧ ∀ c ∈ part, c ∈ s := by
  simp only [pieces, List.mem_mergeSort, List.mem_filter, List.mem_map, Bool.not_eq_true',
    CodeSet.isEmpty_eq_false_iff]
  constructor
  · rintro ⟨⟨block, hblock, rfl⟩, c, hc⟩
    have hcs := CodeSet.mem_inter.mp hc
    have hwhole : block.inter s = block := by
      refine CodeSet.eq_of_forall_mem_iff fun d => ?_
      rw [CodeSet.mem_inter]
      exact ⟨And.left, fun hd => ⟨hd, hcut.uniform s hs block hblock c hcs.1 hcs.2 d hd⟩⟩
    refine ⟨hwhole.symm ▸ hblock, fun d hd => (CodeSet.mem_inter.mp hd).2⟩
  · rintro ⟨hpart, hsub⟩
    refine ⟨⟨part, hpart, CodeSet.eq_of_forall_mem_iff fun d => ?_⟩, hcut.nonempty part hpart⟩
    rw [CodeSet.mem_inter]
    exact ⟨And.left, fun hd => ⟨hd, hsub d hd⟩⟩

/-- The pieces of a set have all its codes. -/
theorem exists_mem_pieces (hcut : IsCut sets blocks) (hs : s ∈ sets) (hc : c ∈ s)
    (hall : c ∈ CodeSet.all) : ∃ part ∈ pieces blocks s, c ∈ part := by
  obtain ⟨block, hblock, hmem⟩ := hcut.covers c hall
  have hsub := hcut.uniform s hs block hblock c hmem hc
  exact ⟨block, (hcut.mem_pieces_iff hs).mpr ⟨hblock, hsub⟩, hmem⟩

end IsCut

/-- The block of the silent code has no other code. -/
theorem eq_silent_of_mem_blocks (hblock : block ∈ Alphabet.blocks sets)
    (hsilent : Code.silent ∈ block) :    block = CodeSet.silent := by
  have huniform := (isCut_blocks sets).uniform CodeSet.silent List.mem_cons_self block hblock
    Code.silent hsilent (CodeSet.mem_silent.mpr rfl)
  exact CodeSet.eq_single_of_forall_mem hsilent fun d hd => CodeSet.mem_silent.mp (huniform d hd)

end Alphabet
end Munch

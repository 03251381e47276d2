import Munch.Proofs.Automaton.WellFormed
import Munch.Proofs.Compile.Combined
import Munch.Proofs.Compile.Filter

/-!
# What priorities keep

Resolving priorities adds no words, and on every edge into a final state it leaves the
largest marker.  When the longest match wins it changes nothing else, so of all tokens of a
word the one defined last is still recognized.  In declaration order longer matches may go,
but what the start recognizes stays.

Main results:

- Theorem {lit}`Graph.WellFormed.exists_accepts_trimmed`: the token defined last is still
  recognized.
- Theorem {lit}`Graph.WellFormed.decides_of_resolve`: when priorities count, one token is
  left for every word.
- Theorem {lit}`Graph.WellFormed.serves_of_resolve`: what holds after priorities are
  resolved.
-/

namespace Munch
namespace Graph

variable {g h : Graph} {i j : Nat} {u w : List Int} {e : Edge} {tokens : Int → Language Int}
  {count : Nat} {mode : PriorityMode} {report : FilterReport}

/-! ## Recognized tokens -/

/-- Tokens whose words consist of characters and whose markers are codes. -/
def HaveMarkers (tokens : Int → Language Int) : Prop :=
  ∀ id, ∀ u ∈ tokens id, (∀ c ∈ u, c ∈ CodeSet.chars) ∧ 0 ≤ id ∧ id ≤ maxTokenId

/-- A graph that accepts nothing but words of tokens with their markers. -/
def Sound (g : Graph) (tokens : Int → Language Int) : Prop :=
  ∀ w, g.Accepts 0 w → ∃ id, w ∈ marked id (tokens id)

/-- A graph that accepts nothing but words of tokens with their markers, and every word of
a token with the marker of that token or of one defined later. -/
structure Recognizes (g : Graph) (tokens : Int → Language Int) : Prop where
  sound : ∀ w, g.Accepts 0 w → ∃ id, w ∈ marked id (tokens id)
  complete : ∀ id, ∀ u ∈ tokens id, ∃ later, id ≤ later ∧ g.Accepts 0 (u ++ [Code.marker later])

/-- A graph that accepts one code at most behind every word. -/
def Decides (g : Graph) : Prop :=
  ∀ u c c', g.Accepts 0 (u ++ [c]) → g.Accepts 0 (u ++ [c']) → c = c'

/-- What holds of a graph in which the priorities of tokens are resolved. -/
structure Serves (g : Graph) (mode : PriorityMode) (tokens : Int → Language Int) : Prop where
  sound : g.Sound tokens
  /-- Where a token matches without input, it or one defined later is recognized at the
  start. -/
  empty : ∀ id, [] ∈ tokens id → ∃ later, id ≤ later ∧ g.Accepts 0 [Code.marker later]
  recognizes : mode ≠ .declarationOrder → g.Recognizes tokens
  decides : mode ≠ .off → g.Decides

theorem HaveMarkers.isWord (htokens : HaveMarkers tokens) {id : Int}
    (hw : w ∈ marked id (tokens id)) : IsWord w := by
  obtain ⟨u, hu, rfl⟩ := hw
  obtain ⟨hchars, hlow, hhigh⟩ := htokens id u hu
  refine isWord_append.mpr ⟨isWord_of_mem_chars hchars, isWord_cons.mpr ⟨?_, isWord_nil⟩⟩
  unfold maxTokenId at hhigh
  unfold Code.IsLetter Code.marker Code.least Code.charLimit Code.silent
  omega

namespace Sound

/-- What ends in a marker is a word of that token. -/
theorem mem_of_accepts (hsound : g.Sound tokens) {id : Int}
    (haccepts : g.Accepts 0 (u ++ [Code.marker id])) : u ∈ tokens id := by
  obtain ⟨other, v, hv, heq⟩ := hsound _ haccepts
  obtain ⟨rfl, hlast⟩ := List.append_inj' heq rfl
  rw [Code.marker_injective (List.singleton_inj.mp hlast)]
  exact hv

/-- Where every token of a word is accepted, or one defined later, the largest token accepted
is the largest one of the word. -/
theorem isGreatest_marker_iff (hsound : g.Sound tokens)
    (hcomplete : ∀ id, u ∈ tokens id → ∃ later, id ≤ later ∧ g.Accepts 0 (u ++ [Code.marker later]))
    {id : Int} :
    IsGreatest {k | g.Accepts 0 (u ++ [Code.marker k])} id ↔ IsGreatest {k | u ∈ tokens k} id := by
  constructor
  · rintro ⟨haccepts, hle⟩
    refine ⟨hsound.mem_of_accepts haccepts, fun k hk => ?_⟩
    obtain ⟨later, hlater, haccepts'⟩ := hcomplete k hk
    exact Int.le_trans hlater (hle haccepts')
  · rintro ⟨hmem, hle⟩
    obtain ⟨later, hlater, haccepts⟩ := hcomplete id hmem
    obtain rfl := Int.le_antisymm hlater (hle (hsound.mem_of_accepts haccepts))
    exact ⟨haccepts, fun k hk => hle (hsound.mem_of_accepts hk)⟩

/-- Words of tokens with their markers end in markers. -/
theorem endsInMarkers (hsound : g.Sound tokens) (htokens : HaveMarkers tokens)
    (hcount : ∀ id, ∀ u ∈ tokens id, id < count) : g.EndsInMarkers count := by
  intro w haccepts
  obtain ⟨id, u, hu, rfl⟩ := hsound w haccepts
  obtain ⟨hchars, hlow, -⟩ := htokens id u hu
  have hlt := hcount id u hu
  refine ⟨u, hchars, id.toNat, ?_, ?_⟩
  · omega
  · rw [Int.toNat_of_nonneg hlow]

/-- An automaton that accepts fewer words is sound, too. -/
theorem mono (hsound : g.Sound tokens) (hsub : ∀ w, h.Accepts 0 w → g.Accepts 0 w) :
    h.Sound tokens :=
  fun w haccepts => hsound w (hsub w haccepts)

end Sound

theorem Recognizes.mem_of_accepts (hrec : g.Recognizes tokens) {id : Int}
    (haccepts : g.Accepts 0 (u ++ [Code.marker id])) : u ∈ tokens id :=
  Sound.mem_of_accepts hrec.sound haccepts

/-! ## The same words -/

/-- Two automata accept the same words of letters, and the first one no others. -/
structure Follows (h g : Graph) : Prop where
  inAlphabet : h.InAlphabet
  accepts_iff : ∀ w, IsWord w → (h.Accepts 0 w ↔ g.Accepts 0 w)

theorem follows_minimal (hclosed : g.Closed) (hpos : 0 < g.size) : (g.minimal 0).Follows g where
  inAlphabet := inAlphabet_minimal hclosed hpos
  accepts_iff _ hw := accepts_minimal_iff hclosed hpos hw

namespace Follows

variable (hfollows : h.Follows g)
include hfollows

theorem accepts (haccepts : h.Accepts 0 w) : g.Accepts 0 w := by
  obtain ⟨j, hpath, -⟩ := id haccepts
  exact (hfollows.accepts_iff w (hfollows.inAlphabet.isWord_of_path hpath)).mp haccepts

/-- What a sound automaton accepts behind a word is accepted. -/
theorem accepts_marker (hsound : g.Sound tokens) (htokens : HaveMarkers tokens) {id : Int}
    (haccepts : g.Accepts 0 (u ++ [Code.marker id])) : h.Accepts 0 (u ++ [Code.marker id]) := by
  obtain ⟨other, hmarked⟩ := hsound _ haccepts
  exact (hfollows.accepts_iff _ (htokens.isWord hmarked)).mpr haccepts

theorem recognizes (hrec : g.Recognizes tokens) (htokens : HaveMarkers tokens) :
    h.Recognizes tokens where
  sound := Sound.mono hrec.sound fun _ => hfollows.accepts
  complete id u hu := by
    obtain ⟨later, hle, haccepts⟩ := hrec.complete id u hu
    exact ⟨later, hle, hfollows.accepts_marker hrec.sound htokens haccepts⟩

theorem serves (hserves : g.Serves mode tokens) (htokens : HaveMarkers tokens) :
    h.Serves mode tokens where
  sound := hserves.sound.mono fun _ => hfollows.accepts
  empty id hid := by
    obtain ⟨later, hle, haccepts⟩ := hserves.empty id hid
    have hmarker : g.Accepts 0 ([] ++ [Code.marker later]) := haccepts
    exact ⟨later, hle, hfollows.accepts_marker hserves.sound htokens hmarker⟩
  recognizes hmode := hfollows.recognizes (hserves.recognizes hmode) htokens
  decides hmode u c c' hc hc' :=
    hserves.decides hmode u c c' (hfollows.accepts hc) (hfollows.accepts hc')

end Follows

/-! ## Resolving priorities -/

namespace WellFormed

variable (hg : g.WellFormed count)
include hg

/-- Where a token is recognized, it or one defined later still is. -/
theorem exists_accepts_filtered (hfiltered : Filtered g h) {id : Int}
    (haccepts : g.Accepts i [Code.marker id]) :
    ∃ later, id ≤ later ∧ h.Accepts i [Code.marker later] := by
  obtain ⟨e, he, hfinal, hmarker⟩ := hg.accepts_marker_iff.mp haccepts
  -- The first code of the label is the largest marker.
  obtain ⟨later, -, hfirst⟩ := hg.exists_first?_eq_marker he hfinal
  obtain ⟨f, hf, htarget, hc⟩ := hfiltered.exists_edge_of_first he hfinal hfirst
  have hle := CodeSet.le_of_first? hfirst hmarker
  have hne : Code.marker later ≠ Code.silent := by
    unfold Code.marker Code.silent
    omega
  refine ⟨later, ?_, f.target, Path.of_edge hf hc hne, ?_⟩
  · unfold Code.marker at hle
    omega
  · rw [hfiltered.isFinal_eq, htarget]
    exact hfinal

/-- Trimming keeps the paths on characters. -/
theorem path_trimmed (htrimmed : Trimmed g h) (hchars : ∀ c ∈ u, c ∈ CodeSet.chars)
    (hpath : g.Path i u j) : h.Path i u j := by
  induction u generalizing i with
  | nil =>
    rw [hg.deterministic.path_nil_iff.mp hpath]
    exact Path.nil i
  | cons c u ih =>
    obtain ⟨hchar, hrest⟩ := List.forall_mem_cons.mp hchars
    obtain ⟨e, he, hc, hne, htail⟩ := hg.deterministic.path_cons_iff.mp hpath
    have hfinal := hg.isFinal_eq_false_of_mem_chars he hc hchar
    exact Path.read (htrimmed.mem_edges he hfinal) hc hne (ih hrest htail)

/-- Where only the largest markers are left, the token defined last is still recognized. -/
theorem exists_accepts_trimmed (htrimmed : Trimmed g h) (hchars : ∀ c ∈ u, c ∈ CodeSet.chars)
    {id : Int} (haccepts : g.Accepts 0 (u ++ [Code.marker id])) :
    ∃ later, id ≤ later ∧ h.Accepts 0 (u ++ [Code.marker later]) := by
  obtain ⟨i, hpath, hlast⟩ := accepts_append_iff.mp haccepts
  obtain ⟨later, hle, hlater⟩ := hg.exists_accepts_filtered htrimmed.filtered hlast
  exact ⟨later, hle, Accepts.of_path (hg.path_trimmed htrimmed hchars hpath) hlater⟩

/-- When priorities count, one token is left for every word. -/
theorem decides_of_resolve (hmode : mode ≠ .off)
    (hresolve : g.resolve mode 0 = .ok (h, report)) : h.Decides := by
  have hfiltered := filtered_of_resolve hresolve
  have hdet := hfiltered.deterministic hg.deterministic
  intro u c c' hc hc'
  obtain ⟨i, hpath, k, hlast, hfinal⟩ := accepts_append_iff.mp hc
  obtain ⟨i', hpath', k', hlast', hfinal'⟩ := accepts_append_iff.mp hc'
  obtain rfl := hdet.eq_of_path hpath hpath'
  obtain ⟨e, he, hce, -, hnil⟩ := hdet.path_cons_iff.mp hlast
  obtain ⟨f, hf, hcf, -, hnil'⟩ := hdet.path_cons_iff.mp hlast'
  obtain rfl := hdet.path_nil_iff.mp hnil
  obtain rfl := hdet.path_nil_iff.mp hnil'
  rw [hfiltered.isFinal_eq] at hfinal hfinal'
  -- There is one final state, so both codes are on the only edge into it.
  have htarget := hg.eq_of_isFinal _ _ hfinal hfinal'
  obtain rfl := eq_of_target_eq (hfiltered.sorted (hg.sorted i)) he hf htarget
  obtain ⟨only, honly⟩ := exists_eq_single_of_resolve hmode hg.closed hresolve
    (hfiltered.path hpath).leads he hfinal ⟨c, hce⟩
  rw [honly, CodeSet.mem_single] at hce hcf
  rw [hce, hcf]

/-- What holds after priorities are resolved. -/
theorem serves_of_resolve (hrec : g.Recognizes tokens) (htokens : HaveMarkers tokens)
    (hresolve : g.resolve mode 0 = .ok (h, report)) : h.Serves mode tokens where
  sound := Sound.mono hrec.sound fun _ => (filtered_of_resolve hresolve).accepts
  empty id hid := by
    obtain ⟨later, hle, haccepts⟩ := hrec.complete id [] hid
    obtain ⟨last, hle', hlast⟩ := hg.exists_accepts_filtered (filtered_of_resolve hresolve) haccepts
    exact ⟨last, Int.le_trans hle hle', hlast⟩
  recognizes hmode :=
    { sound := Sound.mono hrec.sound fun _ => (filtered_of_resolve hresolve).accepts
      complete := fun id u hu => by
        obtain ⟨later, hle, haccepts⟩ := hrec.complete id u hu
        obtain ⟨last, hle', hlast⟩ := hg.exists_accepts_trimmed (trimmed_of_resolve hmode hresolve)
          (htokens id u hu).1 haccepts
        exact ⟨last, Int.le_trans hle hle', hlast⟩ }
  decides hmode := hg.decides_of_resolve hmode hresolve

/-- An edge into a final state carries the marker of one token when one is left for every
word. -/
theorem exists_eq_single (hdecides : g.Decides) (he : e ∈ g.edges i)
    (hfinal : g.isFinal e.target = true) :
    ∃ id < count, e.label = CodeSet.single (Code.marker (id : Nat)) := by
  obtain ⟨id, hid, hfirst⟩ := hg.exists_first?_eq_marker he hfinal
  have hmem := CodeSet.mem_of_first? hfirst
  obtain ⟨w, hpath⟩ := hg.reached i (lt_size_of_mem_edges he)
  have haccepts : ∀ c ∈ e.label, g.Accepts 0 (w ++ [c]) := by
    intro c hc
    have hne := hg.deterministic.ne_silent he hc
    exact Accepts.of_path hpath ⟨e.target, Path.of_edge he hc hne, hfinal⟩
  refine ⟨id, hid, CodeSet.eq_single_of_forall_mem hmem fun c hc => ?_⟩
  exact hdecides w c _ (haccepts c hc) (haccepts _ hmem)

end WellFormed
end Graph
end Munch

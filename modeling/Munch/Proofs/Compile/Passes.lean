import Mathlib.Algebra.GroupWithZero.Nat
import Munch.Priority.InPlace
import Munch.Proofs.Compile.EndingTokens
import Munch.Proofs.Compile.Filter
import Munch.Proofs.Compile.Relaxation

/-!
# The filter as changes in place

A change of the edges of one state only looks at them and at the final flags.  No state is
listed twice, so that every change finds the edges of its state as they were before the pass.

Main results:

- Theorem {lit}`Graph.editStates_eq`: a pass over different states changes all of them at
  once.
- Theorem {lit}`Graph.filterInPlace_eq`: relaxation and the two passes resolve priorities in
  declaration order.
-/

namespace Munch
namespace Graph

variable {g h : Graph} {tokens bounds : Array Int} {order : List Nat} {start i : Nat} {e : Edge}

/-! ## Changes of single states -/

/-- A change of the edges of a state that looks at nothing but them and the final flags. -/
def IsLocal (change : Graph → Nat → List Edge × Nat) : Prop :=
  ∀ ⦃g h : Graph⦄ ⦃i : Nat⦄, (∀ j, h.isFinal j = g.isFinal j) → h.edges i = g.edges i →
    change h i = change g i

/-- The flags that are noted are those of the targets. -/
theorem zip_finalTargets (g : Graph) (i : Nat) :
    (g.edges i).zip (g.finalTargets i) = (g.edges i).map fun e => (e, g.isFinal e.target) :=
  List.map_prod_left_eq_zip.symm

/-- One step of the first pass keeps and counts what the filter does. -/
theorem dropShadowed_eq (tokens bounds : Array Int) (g : Graph) (i : Nat) :
    dropShadowed tokens bounds g i =
      (g.keptEdges tokens bounds i, (g.shadowedEdges tokens bounds i).length) := by
  have hlength : (g.edges i).length =
      (g.shadowedEdges tokens bounds i).length + (g.keptEdges tokens bounds i).length :=
    List.length_eq_length_filter_add _
  have hkept : ((g.edges i).filter fun e =>
      !(!g.isFinal e.target && decide (0 ≤ tokenAt tokens e.target ∧
        tokenAt tokens e.target < notedAt bounds i))) = g.keptEdges tokens bounds i :=
    rfl
  simp only [dropShadowed, zip_finalTargets, List.filter_map, List.map_map, Function.comp_def,
    List.map_id', List.length_map, hkept]
  rw [hlength, Nat.add_sub_cancel]

/-- Shortening one label is trimming it. -/
theorem shortenBand_eq (g : Graph) (e : Edge) :
    shortenBand e (g.isFinal e.target) = (g.trimLabel e, g.isTrimmable e) := by
  unfold shortenBand trimLabel isTrimmable
  cases hfirst : e.label.first? with
  | none =>
    have hempty : e.label.isEmpty = true := by
      by_contra hne
      obtain ⟨c, hc⟩ := CodeSet.exists_first?_of_isEmpty_eq_false (Bool.not_eq_true _ ▸ hne)
      rw [hfirst] at hc
      cases hc
    simp [hempty]
  | some prime =>
    have hempty : e.label.isEmpty = false :=
      CodeSet.isEmpty_eq_false_iff.mpr ⟨prime, CodeSet.mem_of_first? hfirst⟩
    cases hsingle : e.label.single? with
    | none => cases g.isFinal e.target <;> simp [hempty]
    | some c =>
      have hmem := CodeSet.mem_of_first? hfirst
      rw [CodeSet.single?_eq_some_iff.mp hsingle, CodeSet.mem_single] at hmem
      simp [hmem]

/-- One step of the second pass trims and counts what the filter does. -/
theorem shortenBands_eq (g : Graph) (i : Nat) :
    shortenBands g i =
      ((g.edges i).map g.trimLabel, ((g.edges i).filter g.isTrimmable).length) := by
  have hshortened : (g.edges i).zipWith shortenBand (g.finalTargets i) =
      (g.edges i).map fun e => (g.trimLabel e, g.isTrimmable e) := by
    rw [← List.map_uncurry_zip_eq_zipWith, zip_finalTargets, List.map_map]
    exact List.map_congr_left fun e _ => g.shortenBand_eq e
  simp only [shortenBands, hshortened, List.map_map, Function.comp_def, List.countP_map,
    ← List.countP_eq_length_filter]

/-- The first pass looks at one state at a time. -/
theorem isLocal_dropShadowed (tokens bounds : Array Int) :
    IsLocal (dropShadowed tokens bounds) := by
  intro g h i hfinal hedges
  simp only [dropShadowed, finalTargets, hfinal, hedges]

/-- So does the second. -/
theorem isLocal_shortenBands : IsLocal shortenBands := by
  intro g h i hfinal hedges
  simp only [shortenBands, finalTargets, hfinal, hedges]

/-! ## Whole passes -/

/-- Changing edges leaves the final flags. -/
theorem isFinal_setEdges (g : Graph) (i : Nat) (es : List Edge) (j : Nat) :
    (g.setEdges i es).isFinal j = g.isFinal j :=
  isFinal_mapEdges g i _ j

/-- Changing the edges of one state leaves those of another. -/
theorem edges_setEdges_ne {j : Nat} (hij : i ≠ j) (es : List Edge) :
    (g.setEdges i es).edges j = g.edges j := by
  rw [setEdges, edges_mapEdges, if_neg fun h => hij h.1]

/-- A pass over different states makes the changes that the graph before it asks for. -/
theorem editStates_eq {change : Graph → Nat → List Edge × Nat} (hlocal : IsLocal change)
    (hnodup : order.Nodup) (g : Graph) :
    editStates change order g =
      (order.foldl (fun r i => r.setEdges i (change g i).1) g,
        (order.map fun i => (change g i).2).sum) := by
  -- The sum starts from what has been counted already.
  suffices hpass : ∀ count, order.foldl
      (fun s i => (s.1.setEdges i (change s.1 i).1, s.2 + (change s.1 i).2)) (g, count) =
        (order.foldl (fun r i => r.setEdges i (change g i).1) g,
          count + (order.map fun i => (change g i).2).sum) by
    rw [editStates, hpass, Nat.zero_add]
  induction order generalizing g with
  | nil => exact fun _ => rfl
  | cons i order ih =>
    intro count
    obtain ⟨hi, hnodup⟩ := List.nodup_cons.mp hnodup
    -- The states behind keep their edges, so that they are changed as before.
    have hsame : ∀ j ∈ order, change (g.setEdges i (change g i).1) j = change g j := by
      intro j hj
      have hij : i ≠ j := fun heq => hi (heq ▸ hj)
      exact hlocal (isFinal_setEdges g i _) (edges_setEdges_ne hij _)
    rw [List.foldl_cons, ih hnodup, List.foldl_cons, List.map_cons, List.sum_cons, Nat.add_assoc]
    congr 1
    · exact List.foldl_ext _ _ _ fun r j hj => by rw [hsame j hj]
    · rw [List.map_congr_left fun j hj => congrArg Prod.snd (hsame j hj)]

/-- The first pass gives up the edges of all states at once. -/
theorem dropShadowed_pass (hnodup : order.Nodup) :
    editStates (dropShadowed tokens bounds) order g =
      (order.foldl (fun r i => r.setEdges i (g.keptEdges tokens bounds i)) g,
        (order.flatMap (g.shadowedEdges tokens bounds)).length) := by
  simp only [editStates_eq (isLocal_dropShadowed tokens bounds) hnodup, dropShadowed_eq,
    List.length_flatMap]

/-- Which labels are trimmed depends on the final flags only. -/
theorem isTrimmable_congr (hfinal : ∀ j, h.isFinal j = g.isFinal j) :
    h.isTrimmable = g.isTrimmable :=
  funext fun e => by rw [isTrimmable, isTrimmable, hfinal]

theorem trimLabel_congr (hfinal : ∀ j, h.isFinal j = g.isFinal j) : h.trimLabel = g.trimLabel :=
  funext fun e => by rw [trimLabel, trimLabel, isTrimmable_congr hfinal]

/-- Dropping edges and then shortening labels does both. -/
theorem shortenBands_pass (hnodup : order.Nodup) (horder : ∀ i ∈ order, i < g.size) :
    editStates shortenBands order (editStates (dropShadowed tokens bounds) order g).1 =
      (g.filtered order tokens bounds,
        (order.flatMap fun i => (g.keptEdges tokens bounds i).filter g.isTrimmable).length) := by
  rw [dropShadowed_pass hnodup, editStates_eq isLocal_shortenBands hnodup]
  dsimp only
  generalize hdropped : order.foldl (fun r i => r.setEdges i (g.keptEdges tokens bounds i)) g = d
  have hsize : d.size = g.size := hdropped ▸ size_foldl_setEdges _ _
  have hfinal : ∀ j, d.isFinal j = g.isFinal j := fun j => hdropped ▸ isFinal_foldl_setEdges _ _
  have hedges : ∀ j, d.edges j =
      if j ∈ order ∧ j < g.size then g.keptEdges tokens bounds j else g.edges j :=
    fun j => hdropped ▸ edges_foldl_setEdges _ _
  -- The first pass has kept all flags, so that the second one trims as it would have before.
  have hchange : ∀ i ∈ order, shortenBands d i = ((g.keptEdges tokens bounds i).map g.trimLabel,
      ((g.keptEdges tokens bounds i).filter g.isTrimmable).length) := by
    intro i hi
    rw [shortenBands_eq, hedges, if_pos ⟨hi, horder i hi⟩, isTrimmable_congr hfinal,
      trimLabel_congr hfinal]
  refine Prod.ext (eq_of_edges_eq ?_ (fun j => ?_) fun j => ?_) ?_
  · rw [size_foldl_setEdges, hsize, size_filtered]
  · rw [isFinal_foldl_setEdges, hfinal, isFinal_filtered]
  · rw [edges_foldl_setEdges, hsize, hedges, edges_filtered]
    split
    · rename_i hj
      rw [hchange j hj.1]
    · rfl
  · rw [List.length_flatMap]
    exact congrArg List.sum (List.map_congr_left fun i hi => congrArg Prod.snd (hchange i hi))

/-! ## The filter -/

/-- What a state leads to is in the graph. -/
theorem Closed.lt_of_leads (hclosed : g.Closed) (hstart : start < g.size)
    (hleads : Leads g.successors start i) : i < g.size := by
  obtain hfirst | ⟨k, -, hstep⟩ := Relation.ReflTransGen.cases_tail hleads
  · exact hfirst ▸ hstart
  · obtain ⟨e, he, rfl⟩ := mem_successors_iff.mp hstep
    exact hclosed k e he

/-- Relaxation and the two passes resolve priorities in declaration order.  When that fails,
the graph is left as it was. -/
theorem filterInPlace_eq (hclosed : g.Closed) (hstart : start < g.size) :
    g.filterInPlace start = match g.resolve .declarationOrder start with
      | .error fault => (.error fault, g)
      | .ok (h, report) => (.ok report, h) := by
  rw [resolve_eq (by decide), filterInPlace]
  cases htokens : g.endingTokens (g.topologicalOrder start) with
  | error fault => rfl
  | ok tokens =>
    have hnodup := nodup_topologicalOrder hstart
    have horder : ∀ i ∈ g.topologicalOrder start, i < g.size := fun i hi =>
      hclosed.lt_of_leads hstart ((mem_topologicalOrder_iff hclosed).mp hi)
    have hbounds : g.relaxed tokens start = g.precedence tokens start :=
      relaxed_eq_precedence hclosed (size_of_endingTokens htokens) hstart
        (tokenAt_lt_noToken htokens)
    simp only [hbounds, shortenBands_pass hnodup horder, Except.map]
    rw [dropShadowed_pass hnodup]
    rfl

end Graph
end Munch

import Munch.Proofs.Compile.Precedence

/-!
# The tokens that states recognize

A state recognizes the token whose marker comes first on its last edge into a final state.
This is worked out for the states that the start leads to, and it fails when an edge of one of
them into a final state has no marker as its first code.

Main results:

- Theorem {lit}`Graph.endingToken_eq_ok_iff`: the token of a state.
- Theorem {lit}`Graph.marked_of_endingTokens` and theorem {lit}`Graph.tokenAt_eq_lastToken`:
  the tokens of the states that the start leads to.
- Theorem {lit}`Graph.exists_of_endingTokens_eq_error`: the edge that a fault names.
- Theorem {lit}`Graph.tokenAt_lt_noToken`: all tokens are below the bound of a state that has
  none.
-/

namespace Munch

/-- A fold that fails does so at one of its steps. -/
theorem exists_of_foldlM_eq_error {ε α β : Type} {f : β → α → Except ε β} {as : List α} {b : β}
    {fault : ε} (h : as.foldlM f b = .error fault) :
    ∃ a ∈ as, ∃ before, f before a = .error fault := by
  induction as generalizing b with
  | nil => cases h
  | cons a as ih =>
    rw [List.foldlM_cons] at h
    cases hfirst : f b a with
    | error fault' =>
      rw [hfirst] at h
      cases h
      exact ⟨a, List.mem_cons_self, b, hfirst⟩
    | ok next =>
      rw [hfirst] at h
      obtain ⟨a', ha', hfault⟩ := ih h
      exact ⟨a', List.mem_cons_of_mem a ha', hfault⟩

namespace Edge

variable {e : Edge}

/-- The first code of the label is a marker. -/
def Marked (e : Edge) : Prop :=
  ∃ code, e.label.first? = some code ∧ Code.isMarker code = true

/-- The token whose marker is the first code of the label. -/
def firstToken (e : Edge) : Int := e.label.first?.elim unknownToken Code.tokenOf

/-- The first token is that of the first code. -/
theorem firstToken_of_first? {code : Int} (h : e.label.first? = some code) :
    e.firstToken = Code.tokenOf code := by
  rw [firstToken, h]
  rfl

/-- The first token of a marked edge is less than what stands for none. -/
theorem Marked.firstToken_lt (h : e.Marked) : e.firstToken < Graph.noToken := by
  obtain ⟨code, hfirst, hmarker⟩ := h
  rw [firstToken_of_first? hfirst]
  have hbounds : Code.least ≤ code ∧ code < Code.silent := of_decide_eq_true hmarker
  unfold Code.least at hbounds
  unfold Code.tokenOf Graph.noToken Code.charLimit
  omega

end Edge

namespace Graph

variable {g : Graph} {tokens : Array Int} {start i : Nat} {before after : Int} {e : Edge}
  {es : List Edge} {fault : AutomatonFault}

/-! ## The token of a state -/

/-- The token of the last one among some edges that leads into a final state. -/
def lastTokenOf (g : Graph) (before : Int) (es : List Edge) : Int :=
  ((es.filter fun e => g.isFinal e.target).getLast?.map Edge.firstToken).getD before

/-- The token of the last edge of a state into a final one, or unknown without one. -/
def lastToken (g : Graph) (i : Nat) : Int := g.lastTokenOf unknownToken (g.edges i)

/-- An edge into a final state replaces the token before. -/
theorem lastTokenOf_cons_of_isFinal (hfinal : g.isFinal e.target = true) :
    g.lastTokenOf before (e :: es) = g.lastTokenOf e.firstToken es := by
  have hfilter : ((e :: es).filter fun e => g.isFinal e.target) =
      e :: es.filter fun e => g.isFinal e.target := by simp [hfinal]
  rw [lastTokenOf, hfilter, List.getLast?_cons, lastTokenOf]
  cases (es.filter fun e => g.isFinal e.target).getLast? <;> rfl

/-- Another edge leaves the token before. -/
theorem lastTokenOf_cons_of_isFinal_eq_false (hfinal : g.isFinal e.target = false) :
    g.lastTokenOf before (e :: es) = g.lastTokenOf before es := by
  rw [lastTokenOf, List.filter_cons_of_neg (by simp [hfinal]), lastTokenOf]

/-- The loop goes on with the token before, behind an edge that is not final. -/
theorem endingStep_of_isFinal_eq_false (hfinal : g.isFinal e.target = false) :
    g.endingStep i before e = .ok before := by
  simp [endingStep, hfinal]

/-- It goes on with the token of a marked edge into a final state. -/
theorem endingStep_of_marked (hfinal : g.isFinal e.target = true) (hmarked : e.Marked) :
    g.endingStep i before e = .ok e.firstToken := by
  obtain ⟨code, hfirst, hmarker⟩ := hmarked
  simp [endingStep, hfinal, hfirst, hmarker, Edge.firstToken_of_first? hfirst]

/-- It ends at an edge into a final state that is not marked. -/
theorem endingStep_of_not_marked (hfinal : g.isFinal e.target = true) (hmarked : ¬e.Marked) :
    g.endingStep i before e = .error (.unmarkedFinal i e.target) := by
  cases hfirst : e.label.first? with
  | none => simp [endingStep, hfinal, hfirst]
  | some code =>
    have hmarker : Code.isMarker code = false :=
      Bool.eq_false_iff.mpr fun hmarker => hmarked ⟨code, hfirst, hmarker⟩
    simp [endingStep, hfinal, hfirst, hmarker]

/-- The loop gets to the end when all edges into final states are marked. -/
theorem foldlM_endingStep_eq_ok_iff :
    es.foldlM (g.endingStep i) before = .ok after ↔
      (∀ e ∈ es, g.isFinal e.target = true → e.Marked) ∧ after = g.lastTokenOf before es := by
  induction es generalizing before with
  | nil =>
    change Except.ok before = Except.ok after ↔ _
    rw [Except.ok.injEq, eq_comm]
    exact ⟨fun h => ⟨List.forall_mem_nil _, h⟩, And.right⟩
  | cons e es ih =>
    rw [List.foldlM_cons, List.forall_mem_cons]
    cases hfinal : g.isFinal e.target with
    | false =>
      rw [endingStep_of_isFinal_eq_false hfinal, lastTokenOf_cons_of_isFinal_eq_false hfinal]
      refine ih.trans (and_congr_left fun _ => ?_)
      exact ⟨fun hrest => ⟨fun h => absurd h Bool.false_ne_true, hrest⟩, And.right⟩
    | true =>
      rw [lastTokenOf_cons_of_isFinal hfinal]
      by_cases hmarked : e.Marked
      · rw [endingStep_of_marked hfinal hmarked]
        refine ih.trans (and_congr_left fun _ => ?_)
        exact ⟨fun hrest => ⟨fun _ => hmarked, hrest⟩, And.right⟩
      · rw [endingStep_of_not_marked hfinal hmarked]
        refine iff_of_false (fun h => ?_) fun h => hmarked (h.1.1 rfl)
        cases h

/-- A state has a token when its edges into final states have markers as their first codes,
and it is that of the last such edge. -/
theorem endingToken_eq_ok_iff :
    g.endingToken i = .ok after ↔
      (∀ e ∈ g.edges i, g.isFinal e.target = true → e.Marked) ∧ after = g.lastToken i := by
  rw [endingToken_eq, foldlM_endingStep_eq_ok_iff, lastToken]

/-- A fault names an edge into a final state that has no marker as its first code. -/
theorem exists_of_endingToken_eq_error (h : g.endingToken i = .error fault) :
    ∃ e ∈ g.edges i, g.isFinal e.target = true ∧ ¬e.Marked ∧
      fault = .unmarkedFinal i e.target := by
  obtain ⟨e, he, before, hstep⟩ := exists_of_foldlM_eq_error h
  change g.endingStep i before e = .error fault at hstep
  refine ⟨e, he, ?_⟩
  cases hfinal : g.isFinal e.target with
  | false =>
    rw [endingStep_of_isFinal_eq_false hfinal] at hstep
    cases hstep
  | true =>
    by_cases hmarked : e.Marked
    · rw [endingStep_of_marked hfinal hmarked] at hstep
      cases hstep
    · rw [endingStep_of_not_marked hfinal hmarked] at hstep
      cases hstep
      exact ⟨rfl, hmarked, rfl⟩

/-- The last token is less than what stands for none. -/
theorem lastToken_lt_noToken (hmarked : ∀ e ∈ g.edges i, g.isFinal e.target = true → e.Marked) :
    g.lastToken i < noToken := by
  rw [lastToken, lastTokenOf]
  cases hlast : ((g.edges i).filter fun e => g.isFinal e.target).getLast? with
  | none => exact (by decide : unknownToken < noToken)
  | some e =>
    obtain ⟨he, hfinal⟩ := List.mem_filter.mp (List.mem_of_getLast? hlast)
    exact (hmarked e he hfinal).firstToken_lt

/-! ## The tokens of all states -/

/-- A fault is that of a state which the start leads to. -/
theorem exists_of_endingTokens_eq_error (hclosed : g.Closed)
    (h : g.endingTokens (g.topologicalOrder start) = .error fault) :
    ∃ i, Leads g.successors start i ∧ ∃ e ∈ g.edges i, g.isFinal e.target = true ∧ ¬e.Marked ∧
      fault = .unmarkedFinal i e.target := by
  obtain ⟨i, hi, before, hstep⟩ := exists_of_foldlM_eq_error h
  refine ⟨i, (mem_topologicalOrder_iff hclosed).mp hi, ?_⟩
  cases htoken : g.endingToken i with
  | error fault' =>
    rw [htoken] at hstep
    cases hstep
    exact exists_of_endingToken_eq_error htoken
  | ok token =>
    rw [htoken] at hstep
    cases hstep

variable (htokens : g.endingTokens (g.topologicalOrder start) = .ok tokens)
include htokens

/-- At a state that the start leads to the token is that of its own edges. -/
theorem endingToken_eq_tokenAt (hclosed : g.Closed) (hi : i < g.size)
    (hleads : Leads g.successors start i) : g.endingToken i = .ok (tokenAt tokens i) := by
  obtain ⟨-, hfound⟩ := foldlM_setIfInBounds_eq_ok htokens
  exact (hfound i (by rwa [Array.size_replicate])).1 ((mem_topologicalOrder_iff hclosed).mpr hleads)

/-- When the tokens are found, all edges into final states from where the start leads to have
markers as their first codes. -/
theorem marked_of_endingTokens (hclosed : g.Closed) (hi : i < g.size)
    (hleads : Leads g.successors start i) :
    ∀ e ∈ g.edges i, g.isFinal e.target = true → e.Marked :=
  (endingToken_eq_ok_iff.mp (endingToken_eq_tokenAt htokens hclosed hi hleads)).1

/-- It is the last token that its edges mark. -/
theorem tokenAt_eq_lastToken (hclosed : g.Closed) (hi : i < g.size)
    (hleads : Leads g.successors start i) : tokenAt tokens i = g.lastToken i :=
  (endingToken_eq_ok_iff.mp (endingToken_eq_tokenAt htokens hclosed hi hleads)).2

/-- No token is as large as what stands for none. -/
theorem tokenAt_lt_noToken (i : Nat) : tokenAt tokens i < noToken := by
  have hunknown : unknownToken < noToken := by decide
  obtain ⟨-, hfound⟩ := foldlM_setIfInBounds_eq_ok htokens
  by_cases hi : i < g.size
  · obtain ⟨hin, hout⟩ := hfound i (by rwa [Array.size_replicate])
    by_cases horder : i ∈ g.topologicalOrder start
    · obtain ⟨hmarked, hvalue⟩ := endingToken_eq_ok_iff.mp (hin horder)
      rw [hvalue]
      exact lastToken_lt_noToken hmarked
    · rw [hout horder, tokenAt, Array.getElem?_replicate, if_pos hi]
      exact hunknown
  · have hsize := size_of_endingTokens htokens
    rw [tokenAt, Array.getElem?_eq_none (hsize ▸ Nat.not_lt.mp hi)]
    exact hunknown

end Graph
end Munch

import Munch.Proofs.Compile.Priorities

/-!
# The tokens that limit ways to a state

In declaration order every state gets a precedence: the least token that limits some way to
it from the start.  A way stays below a limit when no token defined later than the limit is
recognized along it, so the precedence is at most some limit exactly when there is a way
below that limit.

Main results:

- Theorem {lit}`Graph.precedence_le_iff`: the precedence of a state by the ways to it.
- Theorem {lit}`Graph.WellFormed.tokenAt_spec`: the token of a state is the largest one that
  it recognizes.
- Theorem {lit}`Graph.WellFormed.leads_stepsBelow_iff`: ways below a limit by the words that
  they spell.
-/

namespace Munch
namespace Graph

variable {g : Graph} {tokens : Array Int} {start i j : Nat} {limit limit' : Int} {e : Edge}

/-! ## Ways below a limit -/

/-- The next states on ways along which no token after `limit` is recognized. -/
def stepsBelow (g : Graph) (tokens : Array Int) (limit : Int) (i : Nat) : List Nat :=
  (g.successors i).filter fun j => !g.isFinal j && decide (tokenAt tokens j ≤ limit)

/-- A step below a limit leads to a state that is not final, and to no later token. -/
theorem mem_stepsBelow_iff :
    j ∈ g.stepsBelow tokens limit i ↔
      j ∈ g.successors i ∧ g.isFinal j = false ∧ tokenAt tokens j ≤ limit := by
  simp [stepsBelow]

/-- The search below a limit finds the states that such steps lead to. -/
theorem mem_reachableBelow_iff (hclosed : g.Closed) (hstart : start < g.size) :
    i ∈ g.reachableBelow tokens start limit ↔ Leads (g.stepsBelow tokens limit) start i := by
  have hnext : ∀ i < g.size, ∀ j ∈ g.stepsBelow tokens limit i, j < g.size :=
    fun i hi j hj => hclosed.successors_lt i hi j (List.mem_of_mem_filter hj)
  have hfound : i ∈ g.reachableBelow tokens start limit ↔
      ∃ r ∈ [start], Leads (g.stepsBelow tokens limit) r i :=
    mem_preorder_iff fun r hr _ hleads =>
      fresh_of_leads hnext (List.mem_singleton.mp hr ▸ hstart) hleads
  simpa only [List.mem_singleton, exists_eq_left] using hfound

/-- A way below a limit is below every larger one. -/
theorem leads_stepsBelow_mono (hle : limit ≤ limit')
    (hleads : Leads (g.stepsBelow tokens limit) i j) : Leads (g.stepsBelow tokens limit') i j := by
  refine Relation.ReflTransGen.mono (fun x y hstep => ?_) _ _ hleads
  obtain ⟨hnext, hfinal, htoken⟩ := mem_stepsBelow_iff.mp hstep
  exact mem_stepsBelow_iff.mpr ⟨hnext, hfinal, Int.le_trans htoken hle⟩

/-- The limits are the tokens that are not before that of the start. -/
theorem mem_limits_iff :
    limit ∈ limits tokens start ↔ limit ∈ tokens ∧ tokenAt tokens start ≤ limit := by
  simp [limits]

/-- The limits increase. -/
theorem pairwise_limits : (limits tokens start).Pairwise (· ≤ ·) :=
  (List.pairwise_mergeSort' (· ≤ ·) _).filter _

/-- The token of a state is one of the tokens. -/
theorem tokenAt_mem (hi : i < tokens.size) : tokenAt tokens i ∈ tokens := by
  rw [tokenAt, Array.getElem?_eq_getElem hi]
  exact Array.getElem_mem hi

/-- A way below some limit is below one of the tokens along it. -/
theorem exists_mem_limits (hclosed : g.Closed) (hsize : tokens.size = g.size)
    (hstart : start < g.size) (hlimit : tokenAt tokens start ≤ limit)
    (hleads : Leads (g.stepsBelow tokens limit) start i) :
    ∃ token ∈ limits tokens start, token ≤ limit ∧ Leads (g.stepsBelow tokens token) start i := by
  induction hleads with
  | refl =>
    have hmem : tokenAt tokens start ∈ tokens := tokenAt_mem (hsize ▸ hstart)
    exact ⟨_, mem_limits_iff.mpr ⟨hmem, Int.le_refl _⟩, hlimit, Relation.ReflTransGen.refl⟩
  | @tail j k _ hstep ih =>
    obtain ⟨token, hmem, hle, hleads⟩ := ih
    obtain ⟨hnext, hfinal, htoken⟩ := mem_stepsBelow_iff.mp hstep
    -- The larger one of the two tokens limits the longer way.
    rcases Int.le_total (tokenAt tokens k) token with hk | hk
    · exact ⟨token, hmem, hle, hleads.tail (mem_stepsBelow_iff.mpr ⟨hnext, hfinal, hk⟩)⟩
    · obtain ⟨f, hf, rfl⟩ := mem_successors_iff.mp hnext
      have hmem' : tokenAt tokens f.target ∈ tokens := tokenAt_mem (hsize ▸ hclosed j f hf)
      have hfirst := (mem_limits_iff.mp hmem).2
      refine ⟨_, mem_limits_iff.mpr ⟨hmem', Int.le_trans hfirst hk⟩, htoken, ?_⟩
      exact (leads_stepsBelow_mono hk hleads).tail
        (mem_stepsBelow_iff.mpr ⟨hnext, hfinal, Int.le_refl _⟩)

/-! ## Precedences -/

/-- Writing a value at some places leaves the size. -/
theorem size_foldl_setIfInBounds (value : Int) (order : List Nat) (found : Array Int) :
    (order.foldl (fun found i => found.setIfInBounds i value) found).size = found.size := by
  induction order generalizing found with
  | nil => rfl
  | cons j order ih => rw [List.foldl_cons, ih, Array.size_setIfInBounds]

/-- The value is found where it was written. -/
theorem getElem?_foldl_setIfInBounds (value : Int) (order : List Nat) (found : Array Int)
    (hi : i < found.size) :
    (order.foldl (fun found i => found.setIfInBounds i value) found)[i]? =
      if i ∈ order then some value else found[i]? := by
  induction order generalizing found with
  | nil => simp
  | cons j order ih =>
    rw [List.foldl_cons, ih _ (by rwa [Array.size_setIfInBounds])]
    by_cases hij : j = i
    · subst hij
      simp [hi]
    · simp [Array.getElem?_setIfInBounds_ne hij, Ne.symm hij]

/-- Every limit is written at the states that it reaches, the largest one first. -/
def writeLimits (reach : Int → List Nat) (found : Array Int) (ls : List Int) : Array Int :=
  ls.foldr (fun limit found =>
    (reach limit).foldl (fun found i => found.setIfInBounds i limit) found) found

/-- The precedences are written from the largest limit to the least one. -/
theorem precedence_eq (g : Graph) (tokens : Array Int) (start : Nat) :
    g.precedence tokens start =
      writeLimits (g.reachableBelow tokens start) (Array.replicate g.size noToken)
        (limits tokens start) :=
  rfl

/-- Writing limits leaves the size. -/
theorem size_writeLimits (reach : Int → List Nat) (found : Array Int) (ls : List Int) :
    (writeLimits reach found ls).size = found.size := by
  induction ls with
  | nil => rfl
  | cons l ls ih => exact (size_foldl_setIfInBounds _ _ _).trans ih

/-- The least limit that reaches a state is written last. -/
theorem getElem?_writeLimits (reach : Int → List Nat) {ls : List Int}
    (hsorted : ls.Pairwise (· ≤ ·)) {found : Array Int} (hi : i < found.size) :
    (∃ l ∈ ls, i ∈ reach l ∧ (writeLimits reach found ls)[i]? = some l ∧
      ∀ l' ∈ ls, i ∈ reach l' → l ≤ l') ∨
    (∀ l ∈ ls, i ∉ reach l) ∧ (writeLimits reach found ls)[i]? = found[i]? := by
  induction ls with
  | nil => exact Or.inr ⟨List.forall_mem_nil _, rfl⟩
  | cons least ls ih =>
    obtain ⟨hleast, hrest⟩ := List.pairwise_cons.mp hsorted
    have hvalue : (writeLimits reach found (least :: ls))[i]? =
        if i ∈ reach least then some least else (writeLimits reach found ls)[i]? :=
      getElem?_foldl_setIfInBounds _ _ _ ((size_writeLimits reach found ls).symm ▸ hi)
    by_cases hreach : i ∈ reach least
    · rw [hvalue, if_pos hreach]
      refine Or.inl ⟨least, List.mem_cons_self, hreach, rfl, ?_⟩
      exact List.forall_mem_cons.mpr ⟨fun _ => Int.le_refl _, fun l hl _ => hleast l hl⟩
    · rw [hvalue, if_neg hreach]
      rcases ih hrest with ⟨l, hl, hmem, hsome, hle⟩ | ⟨hnone, hsame⟩
      · refine Or.inl ⟨l, List.mem_cons_of_mem _ hl, hmem, hsome, ?_⟩
        exact List.forall_mem_cons.mpr ⟨fun h => absurd h hreach, hle⟩
      · exact Or.inr ⟨List.forall_mem_cons.mpr ⟨hreach, hnone⟩, hsame⟩

/-- The precedence of a state is at most some limit when there is a way to it below that
limit. -/
theorem precedence_le_iff (hclosed : g.Closed) (hsize : tokens.size = g.size)
    (hstart : start < g.size) (hi : i < g.size) (hlimit : limit < noToken) :
    (g.precedence tokens start)[i]?.getD noToken ≤ limit ↔
      tokenAt tokens start ≤ limit ∧ Leads (g.stepsBelow tokens limit) start i := by
  have hinit : i < (Array.replicate g.size noToken).size := by rwa [Array.size_replicate]
  have hsorted : (limits tokens start).Pairwise (· ≤ ·) := pairwise_limits
  have hfound := getElem?_writeLimits (g.reachableBelow tokens start) hsorted hinit
  simp only [← precedence_eq, mem_reachableBelow_iff hclosed hstart] at hfound
  constructor
  · intro hle
    rcases hfound with ⟨l, hl, hleads, hvalue, -⟩ | ⟨-, hvalue⟩
    · rw [hvalue, Option.getD_some] at hle
      exact ⟨Int.le_trans (mem_limits_iff.mp hl).2 hle, leads_stepsBelow_mono hle hleads⟩
    · rw [hvalue, Array.getElem?_replicate, if_pos hi, Option.getD_some] at hle
      omega
  · rintro ⟨htoken, hleads⟩
    obtain ⟨token, hmem, hle, hbelow⟩ := exists_mem_limits hclosed hsize hstart htoken hleads
    rcases hfound with ⟨l, -, -, hvalue, hleast⟩ | ⟨hnone, -⟩
    · rw [hvalue, Option.getD_some]
      exact Int.le_trans (hleast token hmem hbelow) hle
    · exact absurd hbelow (hnone token hmem)

/-! ## Tokens of states -/

/-- An edge into a final state tells the token of its state. -/
def endingStep (g : Graph) (i : Nat) (token : Int) (e : Edge) : Except AutomatonFault Int :=
  if g.isFinal e.target then
    match e.label.first? with
    | some code =>
      if Code.isMarker code then .ok (Code.tokenOf code)
      else .error (.unmarkedFinal i e.target)
    | none => .error (.unmarkedFinal i e.target)
  else .ok token

/-- The token of a state is found edge by edge. -/
theorem endingToken_eq (g : Graph) (i : Nat) :
    g.endingToken i = (g.edges i).foldlM (g.endingStep i) unknownToken :=
  rfl

/-- An edge into a final state gives the token of its first code, and others leave it. -/
theorem endingStep_eq_ok {before after : Int} (h : g.endingStep i before e = .ok after) :
    (after = before ∧ g.isFinal e.target = false) ∨
      g.isFinal e.target = true ∧ ∃ c, e.label.first? = some c ∧ after = Code.tokenOf c := by
  unfold endingStep at h
  split at h
  · rename_i hfinal
    split at h
    · rename_i c hfirst
      split at h
      · cases h
        exact Or.inr ⟨hfinal, c, hfirst, rfl⟩
      · cases h
    · cases h
  · rename_i hfinal
    cases h
    exact Or.inl ⟨rfl, by simpa using hfinal⟩

/-- The token of a state is that of an edge into a final state, or unknown without one. -/
theorem foldlM_endingStep_eq_ok {es : List Edge} {before after : Int}
    (h : es.foldlM (g.endingStep i) before = .ok after) :
    (after = before ∧ ∀ e ∈ es, g.isFinal e.target = false) ∨
      ∃ e ∈ es, g.isFinal e.target = true ∧ ∃ c, e.label.first? = some c ∧
        after = Code.tokenOf c := by
  induction es generalizing before with
  | nil =>
    cases h
    exact Or.inl ⟨rfl, List.forall_mem_nil _⟩
  | cons e es ih =>
    rw [List.foldlM_cons] at h
    obtain ⟨next, hnext, hrest⟩ := bind_eq_ok_iff.mp h
    rcases ih hrest with ⟨rfl, hnone⟩ | ⟨f, hf, hfinal⟩
    · rcases endingStep_eq_ok hnext with ⟨rfl, hfinal⟩ | hfinal
      · exact Or.inl ⟨rfl, List.forall_mem_cons.mpr ⟨hfinal, hnone⟩⟩
      · exact Or.inr ⟨e, List.mem_cons_self, hfinal⟩
    · exact Or.inr ⟨f, List.mem_cons_of_mem _ hf, hfinal⟩

/-- The tokens of the listed states are found, and the others stay. -/
theorem foldlM_setIfInBounds_eq_ok {order : List Nat} {found : Array Int}
    (h : order.foldlM (fun tokens i => do
      let token ← g.endingToken i
      return tokens.setIfInBounds i token) found = .ok tokens) :
    tokens.size = found.size ∧ ∀ i < found.size,
      (i ∈ order → g.endingToken i = .ok (tokenAt tokens i)) ∧
        (i ∉ order → tokenAt tokens i = tokenAt found i) := by
  induction order generalizing found with
  | nil =>
    cases h
    exact ⟨rfl, fun i _ => ⟨fun hi => absurd hi List.not_mem_nil, fun _ => rfl⟩⟩
  | cons j order ih =>
    rw [List.foldlM_cons] at h
    obtain ⟨next, hnext, hrest⟩ := bind_eq_ok_iff.mp h
    obtain ⟨token, htoken, hset⟩ := bind_eq_ok_iff.mp hnext
    cases hset
    obtain ⟨hsize, htokens⟩ := ih hrest
    rw [Array.size_setIfInBounds] at hsize htokens
    refine ⟨hsize, fun i hi => ?_⟩
    obtain ⟨hin, hout⟩ := htokens i hi
    by_cases hmem : i ∈ order
    · exact ⟨fun _ => hin hmem, fun hnot => absurd (List.mem_cons_of_mem j hmem) hnot⟩
    · by_cases hij : i = j
      · subst hij
        have hvalue : tokenAt tokens i = token := by
          rw [hout hmem, tokenAt, Array.getElem?_setIfInBounds_self_of_lt hi, Option.getD_some]
        exact ⟨fun _ => hvalue ▸ htoken, fun hnot => absurd List.mem_cons_self hnot⟩
      · refine ⟨fun hcons => absurd ((List.mem_cons.mp hcons).resolve_left hij) hmem, fun _ => ?_⟩
        rw [hout hmem, tokenAt, Array.getElem?_setIfInBounds_ne (Ne.symm hij), tokenAt]

/-- There is a token for every state. -/
theorem size_of_endingTokens {order : List Nat} (htokens : g.endingTokens order = .ok tokens) :
    tokens.size = g.size :=
  (foldlM_setIfInBounds_eq_ok htokens).1.trans Array.size_replicate

namespace WellFormed

variable {count : Nat} (hg : g.WellFormed count)
include hg

/-- In a graph of a tokenizer the order has all states. -/
theorem mem_topologicalOrder (hi : i < g.size) : i ∈ g.topologicalOrder 0 := by
  obtain ⟨w, hpath⟩ := hg.reached i hi
  exact (mem_topologicalOrder_iff hg.closed).mpr hpath.leads

variable (htokens : g.endingTokens (g.topologicalOrder 0) = .ok tokens)
include htokens

/-- The token of a state is the largest one that it recognizes, or unknown when there is
none. -/
theorem tokenAt_spec (hi : i < g.size) :
    (tokenAt tokens i = unknownToken ∧ ∀ id, ¬g.Accepts i [Code.marker id]) ∨
      0 ≤ tokenAt tokens i ∧ IsGreatest {k | g.Accepts i [Code.marker k]} (tokenAt tokens i) := by
  obtain ⟨-, hfound⟩ := foldlM_setIfInBounds_eq_ok htokens
  have hending := (hfound i (by rwa [Array.size_replicate])).1 (hg.mem_topologicalOrder hi)
  rw [endingToken_eq] at hending
  rcases foldlM_endingStep_eq_ok hending with ⟨hunknown, hnone⟩ | ⟨e, he, hfinal, c, hfirst, hc⟩
  · refine Or.inl ⟨hunknown, fun id haccepts => ?_⟩
    obtain ⟨e, he, hfinal, -⟩ := hg.accepts_marker_iff.mp haccepts
    rw [hnone e he] at hfinal
    cases hfinal
  · obtain ⟨id, -, hid⟩ := hg.exists_first?_eq_marker he hfinal
    obtain rfl := Option.some.inj (hfirst.symm.trans hid)
    rw [hc, Code.tokenOf_marker]
    exact Or.inr ⟨Int.natCast_nonneg id, hg.isGreatest_of_first? he hfinal hfirst⟩

/-- The token of a state is at most a limit if all that it recognizes are. -/
theorem tokenAt_le_iff (hi : i < g.size) (hlimit : unknownToken ≤ limit) :
    tokenAt tokens i ≤ limit ↔ ∀ id, g.Accepts i [Code.marker id] → id ≤ limit := by
  rcases hg.tokenAt_spec htokens hi with ⟨hunknown, hnone⟩ | ⟨-, hgreatest⟩
  · rw [hunknown]
    exact iff_of_true hlimit fun id hid => absurd hid (hnone id)
  · exact ⟨fun hle id hid => Int.le_trans (hgreatest.2 hid) hle, fun hle => hle _ hgreatest.1⟩

/-! ## Words that stay below a limit -/

omit htokens in
/-- What is accepted behind a word is accepted from where it leads. -/
theorem accepts_marker_iff_of_path {u : List Int} (hpath : g.Path 0 u i) {id : Int} :
    g.Accepts 0 (u ++ [Code.marker id]) ↔ g.Accepts i [Code.marker id] :=
  hg.deterministic.accepts_append_iff hpath

/-- Ways below a limit are those along words of which no beginning is recognized as a token
after the limit. -/
theorem leads_stepsBelow_iff (hlimit : unknownToken ≤ limit) (hfinal : g.isFinal i = false) :
    (tokenAt tokens 0 ≤ limit ∧ Leads (g.stepsBelow tokens limit) 0 i) ↔
      ∃ v, g.Path 0 v i ∧
        ∀ u, u <+: v → ∀ id, g.Accepts 0 (u ++ [Code.marker id]) → id ≤ limit := by
  have hnil := hg.tokenAt_le_iff htokens hg.pos hlimit
  constructor
  · rintro ⟨hstart, hleads⟩
    clear hfinal
    induction hleads with
    | refl =>
      refine ⟨[], Path.nil 0, fun u hu => ?_⟩
      rw [List.prefix_nil.mp hu]
      exact hnil.mp hstart
    | @tail j k _ hstep ih =>
      obtain ⟨v, hpath, hbelow⟩ := ih
      obtain ⟨hnext, -, htoken⟩ := mem_stepsBelow_iff.mp hstep
      obtain ⟨e, he, rfl⟩ := mem_successors_iff.mp hnext
      obtain ⟨c, hc⟩ := hg.nonempty j e he
      have hlonger := hpath.append (Path.of_edge he hc (hg.deterministic.ne_silent he hc))
      refine ⟨v ++ [c], hlonger, fun u hu => ?_⟩
      rcases List.prefix_concat_iff.mp hu with rfl | hu
      · intro id haccepts
        have hlast := (hg.accepts_marker_iff_of_path hlonger).mp haccepts
        exact (hg.tokenAt_le_iff htokens (hg.closed j e he) hlimit).mp htoken id hlast
      · exact hbelow u hu
  · rintro ⟨v, hpath, hbelow⟩
    refine ⟨hnil.mpr (hbelow [] List.nil_prefix), ?_⟩
    induction v using List.reverseRecOn generalizing i with
    | nil =>
      rw [hg.deterministic.path_nil_iff.mp hpath]
      exact Relation.ReflTransGen.refl
    | append_singleton v c ih =>
      obtain ⟨j, hfirst, hsecond⟩ := path_append_iff.mp hpath
      obtain ⟨e, he, hc, -, hrest⟩ := hg.deterministic.path_cons_iff.mp hsecond
      obtain rfl := hg.deterministic.path_nil_iff.mp hrest
      have htoken : tokenAt tokens e.target ≤ limit := by
        refine (hg.tokenAt_le_iff htokens (hg.closed j e he) hlimit).mpr fun id hid => ?_
        exact hbelow _ (List.prefix_refl _) id ((hg.accepts_marker_iff_of_path hpath).mpr hid)
      -- A state with an edge is not final.
      have hbefore : g.isFinal j = false := by
        refine Bool.eq_false_iff.mpr fun hj => ?_
        rw [hg.edges_final j hj] at he
        cases he
      refine Relation.ReflTransGen.tail (ih hbefore hfirst fun u hu => ?_)
        (mem_stepsBelow_iff.mpr ⟨mem_successors_iff.mpr ⟨e, he, rfl⟩, hfinal, htoken⟩)
      exact hbelow u (hu.trans (List.prefix_append v [c]))

end WellFormed
end Graph
end Munch

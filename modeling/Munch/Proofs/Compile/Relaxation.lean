import Munch.Priority.Relaxation
import Munch.Proofs.Compile.Precedence

/-!
# Precedences by relaxation

Relaxation finds the precedences of states without trying one limit after the other.  A bound
that has been noted is that of some way from the start; when no edge lowers anything, it is the
least one of all ways.

Main results:

- Theorem {lit}`Graph.justified_settle` and theorem {lit}`Graph.notedAt_le_of_leads`: the bounds
  in the end by the ways to the states.
- Theorem {lit}`Graph.relaxed_eq_precedence`: they are the precedences.
-/

namespace Munch
namespace Graph

variable {g : Graph} {tokens noted noted' : Array Int} {order : List Nat}
  {start i j : Nat} {limit bound : Int} {e : Edge}

/-! ## Passes that change nothing -/

namespace Lowers

/-- Bounds that lower each other are the same. -/
theorem antisymm (hfirst : Lowers tokens noted noted') (hsecond : Lowers tokens noted' noted) :
    noted' = noted :=
  eq_of_notedAt_eq hfirst.size_eq fun i => Int.le_antisymm (hfirst.le i) (hsecond.le i)

/-- When several steps together change nothing, none of them does. -/
theorem eq_of_foldl_eq {α : Type} {f : Array Int → α → Array Int}
    (hf : ∀ noted x, Lowers tokens noted (f noted x)) {xs : List α}
    (hfixed : xs.foldl f noted = noted) : ∀ x ∈ xs, f noted x = noted := by
  induction xs with
  | nil => exact List.forall_mem_nil _
  | cons x xs ih =>
    rw [List.foldl_cons] at hfixed
    -- What the first step lowers no later one can raise again.
    have hrest : Lowers tokens (f noted x) noted := by
      have hlowers := foldl hf xs (f noted x)
      rwa [hfixed] at hlowers
    have hfirst : f noted x = noted := (hf noted x).antisymm hrest
    rw [hfirst] at hfixed
    exact List.forall_mem_cons.mpr ⟨hfirst, ih hfixed⟩

end Lowers

/-- Passes only lower bounds. -/
theorem lowers_settle (g : Graph) (tokens : Array Int) (order : List Nat) (noted : Array Int) :
    Lowers tokens noted (g.settle tokens order noted) := by
  fun_induction settle g tokens order noted with
  | case1 noted next hfixed => exact Lowers.refl tokens noted
  | case2 noted next hnext ih => exact (g.lowers_relaxPass tokens order noted).trans ih

/-- In the end a pass changes nothing. -/
theorem relaxPass_settle (g : Graph) (tokens : Array Int) (order : List Nat) (noted : Array Int) :
    g.relaxPass tokens order (g.settle tokens order noted) = g.settle tokens order noted := by
  fun_induction settle g tokens order noted with
  | case1 noted next hfixed => exact hfixed
  | case2 noted next hnext ih => exact ih

/-! ## Bounds are those of ways -/

/-- A value that is the bound of some way from the start to a state, if it is that of a
token. -/
def BoundsWay (g : Graph) (tokens : Array Int) (start i : Nat) (bound : Int) : Prop :=
  ∀ limit < noToken, bound ≤ limit →
    tokenAt tokens start ≤ limit ∧ Leads (g.stepsBelow tokens limit) start i

/-- Every state has the bound of some way to it. -/
def Justified (g : Graph) (tokens : Array Int) (start : Nat) (noted : Array Int) : Prop :=
  ∀ i, BoundsWay g tokens start i (notedAt noted i)

/-- No token bounds every way. -/
theorem boundsWay_noToken (g : Graph) (tokens : Array Int) (start i : Nat) :
    BoundsWay g tokens start i noToken :=
  fun _ hlimit hle => absurd hle (Int.not_le.mpr hlimit)

/-- A bound on the ways into a state extends along an edge to a state that is not final. -/
theorem BoundsWay.tail (hway : BoundsWay g tokens start i bound) (he : e ∈ g.edges i)
    (hfinal : g.isFinal e.target = false) :
    BoundsWay g tokens start e.target (max bound (tokenAt tokens e.target)) := by
  intro limit hlimit hle
  obtain ⟨hbound, htoken⟩ := Int.max_le.mp hle
  obtain ⟨hstart, hleads⟩ := hway limit hlimit hbound
  have hnext : e.target ∈ g.successors i := mem_successors_iff.mpr ⟨e, he, rfl⟩
  exact ⟨hstart, hleads.tail (mem_stepsBelow_iff.mpr ⟨hnext, hfinal, htoken⟩)⟩

/-- Noting a bound of some way keeps the notes justified. -/
theorem Justified.setIfInBounds (hjust : Justified g tokens start noted)
    (hway : BoundsWay g tokens start i bound) :
    Justified g tokens start (noted.setIfInBounds i bound) := by
  intro j
  by_cases hij : i = j
  · subst hij
    by_cases hi : i < noted.size
    · rwa [notedAt_setIfInBounds_self hi]
    · rw [Array.setIfInBounds_eq_of_size_le (Nat.not_lt.mp hi)]
      exact hjust i
  · rw [notedAt_setIfInBounds_ne hij]
    exact hjust j

/-- Relaxing one edge keeps the notes justified. -/
theorem Justified.relaxEdge (hjust : Justified g tokens start noted)
    (hway : BoundsWay g tokens start i bound) (he : e ∈ g.edges i) :
    Justified g tokens start (g.relaxEdge tokens bound noted e) := by
  unfold Graph.relaxEdge
  split
  · exact hjust
  · rename_i hfinal
    dsimp only
    split
    · exact hjust.setIfInBounds (hway.tail he (by simpa using hfinal))
    · exact hjust

/-- Relaxing the edges of one state keeps the notes justified. -/
theorem Justified.relaxState (hjust : Justified g tokens start noted) (i : Nat) :
    Justified g tokens start (g.relaxState tokens noted i) := by
  have hway : BoundsWay g tokens start i (notedAt noted i) := hjust i
  exact List.foldlRecOn (motive := Justified g tokens start) _ _ hjust
    fun _ hbefore _ he => hbefore.relaxEdge hway he

/-- A pass keeps the notes justified. -/
theorem Justified.relaxPass (hjust : Justified g tokens start noted) (order : List Nat) :
    Justified g tokens start (g.relaxPass tokens order noted) :=
  List.foldlRecOn (motive := Justified g tokens start) _ _ hjust
    fun _ hbefore i _ => hbefore.relaxState i

/-- Passes keep that bounds are those of ways. -/
theorem justified_settle (hjust : Justified g tokens start noted) (order : List Nat) :
    Justified g tokens start (g.settle tokens order noted) := by
  fun_induction settle g tokens order noted with
  | case1 noted next hfixed => exact hjust
  | case2 noted next hnext ih => exact ih (hjust.relaxPass order)

/-- The notes are justified at the start. -/
theorem justified_firstBounds (g : Graph) (tokens : Array Int) (start : Nat) :
    Justified g tokens start (g.firstBounds tokens start) := by
  refine Justified.setIfInBounds (fun i => ?_) fun limit _ hle => ⟨hle, Relation.ReflTransGen.refl⟩
  have hnone : notedAt (Array.replicate g.size noToken) i = noToken := by
    rw [notedAt, Array.getElem?_replicate]
    split <;> rfl
  rw [hnone]
  exact boundsWay_noToken g tokens start i

/-! ## Bounds are least -/

/-- An edge that lowers nothing passes the bound of its source on already. -/
theorem notedAt_target_le (hfixed : g.relaxEdge tokens bound noted e = noted)
    (htarget : e.target < noted.size) (hfinal : g.isFinal e.target = false) :
    notedAt noted e.target ≤ max bound (tokenAt tokens e.target) := by
  by_contra hnot
  have hlower := Int.not_le.mp hnot
  rw [relaxEdge, hfinal, if_neg Bool.false_ne_true, if_pos hlower] at hfixed
  have hvalue : notedAt (noted.setIfInBounds e.target (max bound (tokenAt tokens e.target)))
      e.target = max bound (tokenAt tokens e.target) := notedAt_setIfInBounds_self htarget
  rw [hfixed] at hvalue
  omega

/-- When a pass changes nothing, no bound is above that of a way to its state. -/
theorem notedAt_le_of_leads (hclosed : g.Closed) (hsize : noted.size = g.size)
    (hfixed : g.relaxPass tokens (g.topologicalOrder start) noted = noted)
    (hstart : notedAt noted start ≤ limit) (hleads : Leads (g.stepsBelow tokens limit) start i) :
    notedAt noted i ≤ limit := by
  have hstates := Lowers.eq_of_foldl_eq (g.lowers_relaxState tokens) hfixed
  induction hleads with
  | refl => exact hstart
  | @tail j k hbefore hstep ih =>
    obtain ⟨hnext, hfinal, htoken⟩ := mem_stepsBelow_iff.mp hstep
    obtain ⟨e, he, rfl⟩ := mem_successors_iff.mp hnext
    have hreached : Leads g.successors start j :=
      Relation.ReflTransGen.mono (fun _ _ hxy => (mem_stepsBelow_iff.mp hxy).1) _ _ hbefore
    -- The pass came to the edge of this step too, and it lowered nothing there.
    have hstate := hstates j ((mem_topologicalOrder_iff hclosed).mpr hreached)
    have hedge : g.relaxEdge tokens (notedAt noted j) noted e = noted :=
      Lowers.eq_of_foldl_eq (g.lowers_relaxEdge tokens (notedAt noted j)) hstate e he
    calc notedAt noted e.target
        ≤ max (notedAt noted j) (tokenAt tokens e.target) :=
          notedAt_target_le hedge (hsize ▸ hclosed j e he) hfinal
      _ ≤ limit := Int.max_le.mpr ⟨ih, htoken⟩

/-! ## The precedences -/

/-- There is one note for each state. -/
theorem size_relaxed (g : Graph) (tokens : Array Int) (start : Nat) :
    (g.relaxed tokens start).size = g.size := by
  rw [relaxed, (g.lowers_settle tokens _ _).size_eq, firstBounds, Array.size_setIfInBounds,
    Array.size_replicate]

/-- The bound of a state in the end is at most some limit when there is a way to it below
that limit. -/
theorem notedAt_relaxed_le_iff (hclosed : g.Closed) (hstart : start < g.size)
    (hlimit : limit < noToken) :
    notedAt (g.relaxed tokens start) i ≤ limit ↔
      tokenAt tokens start ≤ limit ∧ Leads (g.stepsBelow tokens limit) start i := by
  constructor
  · exact justified_settle (g.justified_firstBounds tokens start) _ i limit hlimit
  · rintro ⟨htoken, hleads⟩
    have hfirst : notedAt (g.firstBounds tokens start) start = tokenAt tokens start :=
      notedAt_setIfInBounds_self (by rwa [Array.size_replicate])
    have hle : notedAt (g.relaxed tokens start) start ≤ limit :=
      calc notedAt (g.relaxed tokens start) start
          ≤ notedAt (g.firstBounds tokens start) start := (g.lowers_settle tokens _ _).le start
        _ = tokenAt tokens start := hfirst
        _ ≤ limit := htoken
    exact notedAt_le_of_leads hclosed (size_relaxed g tokens start)
      (g.relaxPass_settle tokens _ _) hle hleads

/-- No note exceeds the one that stands for no way. -/
theorem notedAt_relaxed_le (htokens : ∀ i, tokenAt tokens i < noToken) (i : Nat) :
    notedAt (g.relaxed tokens start) i ≤ noToken := by
  refine Int.le_trans ((g.lowers_settle tokens _ _).le i) ?_
  by_cases hi : start = i
  · subst hi
    by_cases hlt : start < (Array.replicate g.size noToken).size
    · rw [firstBounds, notedAt_setIfInBounds_self hlt]
      exact Int.le_of_lt (htokens start)
    · rw [firstBounds, Array.setIfInBounds_eq_of_size_le (Nat.not_lt.mp hlt)]
      exact Int.le_of_eq (notedAt_of_size_le (Nat.not_lt.mp hlt))
  · rw [firstBounds, notedAt_setIfInBounds_ne hi, notedAt, Array.getElem?_replicate]
    split <;> exact Int.le_refl _

/-- The same of the precedences of the states of the graph. -/
theorem notedAt_precedence_le (htokens : ∀ i, tokenAt tokens i < noToken) (hi : i < g.size) :
    notedAt (g.precedence tokens start) i ≤ noToken := by
  have hinit : i < (Array.replicate g.size noToken).size := by rwa [Array.size_replicate]
  rw [notedAt, precedence_eq]
  rcases getElem?_writeLimits (g.reachableBelow tokens start) pairwise_limits hinit with
    ⟨limit, hlimit, -, hvalue, -⟩ | ⟨-, hvalue⟩
  · obtain ⟨k, hk, hget⟩ := Array.mem_iff_getElem.mp (mem_limits_iff.mp hlimit).1
    have htoken := htokens k
    rw [tokenAt, Array.getElem?_eq_getElem hk, Option.getD_some, hget] at htoken
    rw [hvalue]
    exact Int.le_of_lt htoken
  · rw [hvalue, Array.getElem?_replicate, if_pos hi]
    exact Int.le_refl _

/-- Values up to `noToken` are equal when they are at most the same limits. -/
theorem eq_of_le_iff {a b : Int} (ha : a ≤ noToken) (hb : b ≤ noToken)
    (hlimits : ∀ limit < noToken, a ≤ limit ↔ b ≤ limit) : a = b := by
  rcases Int.lt_trichotomy a b with hlt | heq | hlt
  · have hle := (hlimits a (Int.lt_of_lt_of_le hlt hb)).mp (Int.le_refl a)
    omega
  · exact heq
  · have hle := (hlimits b (Int.lt_of_lt_of_le hlt ha)).mpr (Int.le_refl b)
    omega

/-- Relaxation finds the precedences. -/
theorem relaxed_eq_precedence (hclosed : g.Closed) (hsize : tokens.size = g.size)
    (hstart : start < g.size) (htokens : ∀ i, tokenAt tokens i < noToken) :
    g.relaxed tokens start = g.precedence tokens start := by
  have hsizes : (g.relaxed tokens start).size = (g.precedence tokens start).size := by
    rw [size_relaxed, precedence_eq, size_writeLimits, Array.size_replicate]
  refine eq_of_notedAt_eq hsizes fun i => ?_
  by_cases hi : i < g.size
  · refine eq_of_le_iff (notedAt_relaxed_le htokens i) (notedAt_precedence_le htokens hi)
      fun limit hlimit => ?_
    rw [notedAt_relaxed_le_iff hclosed hstart hlimit]
    exact (precedence_le_iff hclosed hsize hstart hi hlimit).symm
  · have hout : (g.relaxed tokens start).size ≤ i := size_relaxed g tokens start ▸ Nat.not_lt.mp hi
    rw [notedAt_of_size_le hout, notedAt_of_size_le (hsizes ▸ hout)]

end Graph
end Munch

import Munch.Graph.Order

/-!
# Priorities of tokens

When several tokens match the same text, the edge into a final state carries the
markers of all of them, and only the token defined last is ever reported.  In
declaration order there is a second rule: once a token has been recognized on
every way to a state, longer matches of tokens defined earlier are given up.

Main results:

- Definition {lit}`Graph.precedence`: the token that has been recognized on every way
  to a state.
- Definition {lit}`Graph.resolve`: the graph without what is given up.
-/

namespace Munch

/-- How competing matches are resolved inside an automaton. -/
inductive PriorityMode where
  /-- Not at all. -/
  | off
  /-- The longest match wins, and among equal ones the token defined last. -/
  | longestMatch
  /-- As before, and a token gives up matches that only grow into earlier ones. -/
  | declarationOrder
deriving DecidableEq, Repr, Inhabited

/-- Why a graph is not the automaton of a tokenizer. -/
inductive AutomatonFault where
  | noStates
  | finalStart
  | missingTarget (source target : Nat)
  | noMarker (source target : Nat)
  | mixedLabel (source target : Nat)
  | unknownMarker (source target : Nat) (id : Int)
  | silentMove (source target : Nat)
  | nondeterministic (state : Nat)
  | unmarkedFinal (source target : Nat)
deriving DecidableEq, Repr

/-- The wording of a fault. -/
def AutomatonFault.message : AutomatonFault → String
  | noStates => "automaton has no states"
  | finalStart => "start state is final"
  | missingTarget i j => s!"edge from S{i} targets missing state S{j}"
  | noMarker i j => s!"edge S{i} -> S{j} has no token marker"
  | mixedLabel i j => s!"edge S{i} -> S{j} mixes markers and input"
  | unknownMarker i j id => s!"edge S{i} -> S{j} names unknown token {id}"
  | silentMove i j => s!"edge S{i} -> S{j} consumes no input"
  | nondeterministic i => s!"state S{i} is not deterministic"
  | unmarkedFinal i j => s!"edge S{i} -> S{j} reaches a final state without a token marker"

namespace Graph

/-! ## Tokens of states -/

/-- The token on the last edge of a state into a final one, or `unknownToken`. -/
def endingToken (g : Graph) (i : Nat) : Except AutomatonFault Int :=
  (g.edges i).foldlM
    (fun token e =>
      if g.isFinal e.target then
        match e.label.first? with
        | some code =>
          if Code.isMarker code then .ok (Code.tokenOf code)
          else .error (.unmarkedFinal i e.target)
        | none => .error (.unmarkedFinal i e.target)
      else .ok token)
    unknownToken

/-- The tokens of the listed states, by state; the others count as unknown. -/
def endingTokens (g : Graph) (order : List Nat) : Except AutomatonFault (Array Int) :=
  order.foldlM
    (fun tokens i => do
      let token ← g.endingToken i
      return tokens.setIfInBounds i token)
    (Array.replicate g.size unknownToken)

/-- The token of a state. -/
def tokenAt (tokens : Array Int) (i : Nat) : Int := tokens[i]?.getD unknownToken

/-! ## Declaration order -/

/-- Larger than every token. -/
def noToken : Int := Code.charLimit

/-- The states on ways from the start along which no token after `limit` is
recognized.  Final states are not on the way anywhere. -/
def reachableBelow (g : Graph) (tokens : Array Int) (start : Nat) (limit : Int) : List Nat :=
  let next (i : Nat) : List Nat :=
    (g.successors i).filter fun j => !g.isFinal j && decide (tokenAt tokens j ≤ limit)
  preorder next g.allFresh [start]

/-- The tokens that can limit a way from the start, in increasing order. -/
def limits (tokens : Array Int) (start : Nat) : List Int :=
  (tokens.toList.eraseDups.mergeSort).filter fun t => decide (tokenAt tokens start ≤ t)

/-- For every state the least token that limits some way to it, that is, the token
that has been recognized by then on every way there; `noToken` if there is no
way. -/
def precedence (g : Graph) (tokens : Array Int) (start : Nat) : Array Int :=
  (limits tokens start).foldr
    (fun limit found =>
      (g.reachableBelow tokens start limit).foldl
        (fun found i => found.setIfInBounds i limit) found)
    (Array.replicate g.size noToken)

/-- Whether an edge from a state of some precedence leads to a token that is
defined earlier than that. -/
def isShadowed (g : Graph) (tokens : Array Int) (reached : Int) (e : Edge) : Bool :=
  let token := tokenAt tokens e.target
  !g.isFinal e.target && decide (0 ≤ token ∧ token < reached)

/-! ## Markers -/

/-- Whether the label of an edge into a final state has more than its first code. -/
def isTrimmable (g : Graph) (e : Edge) : Bool :=
  g.isFinal e.target && !e.label.isEmpty && e.label.single?.isNone

/-- Leaves only the marker of the token defined last on an edge into a final
state. -/
def trimLabel (g : Graph) (e : Edge) : Edge :=
  if g.isTrimmable e then { e with label := CodeSet.single (e.label.first?.getD 0) } else e

/-! ## The filter -/

/-- How much a filter changed. -/
structure FilterReport where
  removedEdges : Nat
  trimmedLabels : Nat
deriving DecidableEq, Repr, Inhabited

/-- Whether a filter changed anything. -/
def FilterReport.modified (r : FilterReport) : Bool :=
  decide (0 < r.removedEdges ∨ 0 < r.trimmedLabels)

/-- The edges of a state that are given up, by the precedence of that state. -/
def shadowedEdges (g : Graph) (tokens precedence : Array Int) (i : Nat) : List Edge :=
  (g.edges i).filter (g.isShadowed tokens (precedence[i]?.getD noToken))

/-- The edges of a state that remain. -/
def keptEdges (g : Graph) (tokens precedence : Array Int) (i : Nat) : List Edge :=
  (g.edges i).filter fun e => !g.isShadowed tokens (precedence[i]?.getD noToken) e

/-- Resolves the priorities of the tokens that can be reached from the start. -/
def resolve (mode : PriorityMode) (g : Graph) (start : Nat) :
    Except AutomatonFault (Graph × FilterReport) :=
  match mode with
  | .off => .ok (g, ⟨0, 0⟩)
  | _ => do
    let order := g.topologicalOrder start
    let tokens ← g.endingTokens order
    let precedence :=
      if mode = .declarationOrder then g.precedence tokens start
      else Array.replicate g.size unknownToken
    let kept := order.map fun i => (i, g.keptEdges tokens precedence i)
    let removed := (order.flatMap (g.shadowedEdges tokens precedence)).length
    let trimmed := (kept.flatMap fun k => k.2.filter g.isTrimmable).length
    let filtered := kept.foldl (fun r k => r.setEdges k.1 (k.2.map g.trimLabel)) g
    return (filtered, ⟨removed, trimmed⟩)

/-- The token that the start recognizes without input: that of its first edge into
a final state. -/
def emptyMatch? (g : Graph) (start : Nat) : Option Int :=
  ((g.edges start).find? fun e => g.isFinal e.target).map fun e =>
    match e.label.first? with
    | some code => if code < Code.silent then Code.tokenOf code else unknownToken
    | none => unknownToken

end Graph
end Munch

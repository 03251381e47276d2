import Munch.Graph.Listing
import Munch.Halving
import Munch.Priority

/-!
# Automata of tokenizers

A graph is the automaton of a tokenizer when every state has at most one move on
every character and every edge into a final state carries markers of named tokens
only.  The moves and the token of every state are kept beside the graph.

Main results:

- Definition {lit}`Graph.rows`: the moves and tokens of a graph that passes the checks.
- Definition {lit}`Automaton.step`: the move on a character, by going through all moves.
- Definition {lit}`Automaton.lookup`: the same by halving the list of moves.
- Theorem {lit}`Automaton.ofGraph?_graph`: checking an automaton again succeeds.
-/

namespace Munch

/-- A move to a state on the characters from `lower` up to, but not including,
`upper`. -/
structure Move where
  lower : Int
  upper : Int
  target : Nat
deriving DecidableEq, Repr

/-- The moves of a state by their characters, and the token recognized there. -/
structure Row where
  moves : List Move
  token : Int
deriving DecidableEq, Repr, Inhabited

namespace Row

/-- No move and no token. -/
def empty : Row := ⟨[], unknownToken⟩

/-- The moves of one edge that consumes input. -/
def movesOf (source : Nat) (e : Edge) : Except AutomatonFault (List Move) :=
  e.label.ranges.mapM fun r =>
    if r.1 < 0 then .error (.silentMove source e.target) else .ok ⟨r.1, r.2, e.target⟩

/-- The token that an edge into a final state marks. -/
def markedToken (count source : Nat) (e : Edge) : Except AutomatonFault Int :=
  match e.label.first? with
  | none => .error (.noMarker source e.target)
  | some code =>
    if !Code.isMarker code then .error (.noMarker source e.target)
    else if e.label.boundaries.any fun b => Code.silent < b then
      .error (.mixedLabel source e.target)
    else
      let token := Code.tokenOf code
      if 0 ≤ token ∧ token < count then .ok token
      else .error (.unknownMarker source e.target token)

/-- Adds an edge to a row: a larger token, or further moves. -/
def addEdge (g : Graph) (count source : Nat) (row : Row) (e : Edge) :
    Except AutomatonFault Row :=
  match g.state? e.target with
  | none => .error (.missingTarget source e.target)
  | some target =>
    if target.isFinal then do
      let token ← markedToken count source e
      return { row with token := max row.token token }
    else do
      let moves ← movesOf source e
      return { row with moves := row.moves ++ moves }

/-- Whether no two neighbouring moves share a character. -/
def isDisjoint : List Move → Bool
  | a :: b :: rest => decide (a.upper ≤ b.lower) && isDisjoint (b :: rest)
  | _ => true

/-- The row of a state, for tokens numbered below `count`. -/
def ofState (g : Graph) (count i : Nat) : Except AutomatonFault Row := do
  let row ← (g.edges i).foldlM (addEdge g count i) empty
  let moves := row.moves.mergeSort fun a b => decide (a.lower ≤ b.lower)
  if isDisjoint moves then return { row with moves := moves }
  else throw (.nondeterministic i)

/-- Looks for the last move that begins no later than a code, and takes it if the code lies before
its end. -/
def lookup (row : Row) (code : Int) : Option Nat :=
  match partitionPoint (fun m => decide (m.lower ≤ code)) row.moves.toArray with
  | 0 => none
  | k + 1 => (row.moves[k]?).bind fun m => if code < m.upper then some m.target else none

end Row

/-- The rows of all states of a graph that is the automaton of a tokenizer for
`count` tokens. -/
def Graph.rows (g : Graph) (count : Nat) : Except AutomatonFault (List Row) :=
  if g.size = 0 then .error .noStates
  else if g.isFinal 0 then .error .finalStart
  else (List.range g.size).mapM (Row.ofState g count)

/-- An automaton with the names of its tokens, numbered from zero. -/
structure Automaton where
  graph : Graph
  names : Array String
  rows : Array Row
  rows_eq : graph.rows names.size = .ok rows.toList

namespace Automaton

/-- Automata are equal when graphs and names are. -/
instance : BEq Automaton where
  beq a b := a.graph == b.graph && a.names == b.names

/-- The automaton with some graph, whose start is state zero. -/
def ofGraph? (graph : Graph) (names : Array String) : Except AutomatonFault Automaton :=
  match h : graph.rows names.size with
  | .ok rows => .ok ⟨graph, names, rows.toArray, h⟩
  | .error fault => .error fault

/-- The name of a piece of text that no token matches. -/
def unknownName : String := "<UNKNOWN>"

/-- The name of a token. -/
def tokenName? (a : Automaton) (id : Int) : Option String :=
  if id = unknownToken then some unknownName
  else if id < 0 then none
  else a.names[id.toNat]?

/-- The token with a name, the last one if there are several. -/
def tokenId? (a : Automaton) (name : String) : Option Int :=
  (a.names.toList.zipIdx.reverse.find? fun entry => entry.1 = name).map fun entry =>
    (entry.2 : Int)

/-- The row of a state. -/
def row (a : Automaton) (i : Nat) : Row := a.rows[i]?.getD Row.empty

/-- The state after reading a character. -/
def step (a : Automaton) (i : Nat) (c : Char) : Option Nat :=
  let code := Code.ofChar c
  ((a.row i).moves.find? fun m => decide (m.lower ≤ code ∧ code < m.upper)).map Move.target

/-- The state after reading a character, looked up in the moves of a state by halving. -/
def lookup (a : Automaton) (i : Nat) (c : Char) : Option Nat := (a.row i).lookup (Code.ofChar c)

/-- The token recognized by the text read up to a state. -/
def accepting (a : Automaton) (i : Nat) : Option Int :=
  let token := (a.row i).token
  if token = unknownToken then none else some token

/-- The state in which reading begins. -/
def start (_ : Automaton) : Nat := 0

/-- The number of states. -/
def size (a : Automaton) : Nat := a.graph.size

/-- The listing of an automaton. -/
def listing (a : Automaton) : String := a.graph.listing a.start

/-- Checking an automaton again succeeds. -/
theorem ofGraph?_graph (a : Automaton) :
    ∃ b, ofGraph? a.graph a.names = .ok b ∧ b.rows = a.rows := by
  unfold ofGraph?
  split
  · rename_i rows h
    refine ⟨_, rfl, ?_⟩
    have hrows := a.rows_eq.symm.trans h
    simp only [Except.ok.injEq] at hrows
    simp [← hrows]
  · rename_i fault h
    have hrows := a.rows_eq.symm.trans h
    simp at hrows

end Automaton
end Munch

import Munch.Automaton.Basic
import Munch.Definition
import Munch.Graph.Minimal

/-!
# From definitions to automata

All definitions that are not anonymous are put into one graph, each followed by an
edge with its marker into a final state.  The minimal automaton of that graph,
with priorities resolved, is the automaton of the tokenizer.

Main results:

- Definition {lit}`compile`: the automaton of some definitions, or why there is none.
- Definition {lit}`compileScript`: the same from the text of a script.
-/

namespace Munch

/-- How to build an automaton. -/
structure BuildConfig where
  priority : PriorityMode
  /-- Whether a token that can never be recognized is an error. -/
  rejectRedundant : Bool
deriving DecidableEq, Repr

instance : Inhabited BuildConfig := ⟨⟨.longestMatch, true⟩⟩

/-- Checks that names are different and that ids count up from zero, and gives
the names by id.  `seen` holds all names so far and `names` those with ids, the
latest first. -/
def namesFrom (seen names : List String) :
    List TokenDefinition → Except BuildError (Array String)
  | [] => if names.isEmpty then .error .noTokens else .ok names.reverse.toArray
  | d :: rest =>
    if seen.contains d.name then .error (.duplicateToken d.name)
    else
      match d.id with
      | none => namesFrom (d.name :: seen) names rest
      | some id =>
        if id = (names.length : Int) ∧ id ≤ maxTokenId then
          namesFrom (d.name :: seen) (d.name :: names) rest
        else .error (.invalidTokenId d.name id names.length)

/-- The names of tokens by id. -/
def tokenNames (definitions : List TokenDefinition) : Except BuildError (Array String) :=
  namesFrom [] [] definitions

/-- Adds a fragment that ends in the marker of a token, entered from state zero. -/
def addToken (g : Graph) (id : Int) (f : Fragment) : Graph :=
  let (g, ends) := f.spliceInto g
  let accept := g.size
  ((g.addState true).addEdge ends.exit (CodeSet.single (Code.marker id)) accept).addSilent
    0 ends.entry

/-- One graph for all definitions that are not anonymous.  Its start is state
zero. -/
def combine (definitions : List TokenDefinition) : Graph :=
  definitions.foldl
    (fun g d =>
      match d.id with
      | none => g
      | some id => addToken g id d.fragment)
    (Graph.empty.addState false)

/-- The name of a token in error messages. -/
def nameForError (names : Array String) (id : Int) : String :=
  let known := if id < 0 then none else names[id.toNat]?
  known.getD s!"#{id}"

/-- The minimal automaton of a graph, with priorities resolved.  The names serve
error messages only. -/
def buildGraph (mode : PriorityMode) (g : Graph) (start : Nat) (names : Array String) :
    Except BuildError Graph := do
  let (resolved, report) ←
    ((g.minimal start).resolve mode 0 |>.mapError BuildError.malformedAutomaton)
  let dfa := if report.modified then resolved.minimal 0 else resolved
  match dfa.emptyMatch? 0 with
  | some id => throw (.zeroLengthToken (nameForError names id))
  | none => return dfa

/-- The labels of all edges into final states. -/
def finalLabels (g : Graph) : List CodeSet :=
  g.states.toList.flatMap fun s =>
    (s.edges.filter fun e => g.isFinal e.target).map Edge.label

/-- The first token whose marker is on no edge into a final state. -/
def unrecognized? (g : Graph) (count : Nat) : Option Nat :=
  let labels := finalLabels g
  (List.range count).find? fun id => !labels.any fun label => label.contains (Code.marker id)

/-- Builds the automaton of some definitions. -/
def compile (definitions : List TokenDefinition) (config : BuildConfig) :
    Except BuildError Automaton := do
  let names ← tokenNames definitions
  let g ← buildGraph config.priority (combine definitions) 0 names
  let redundant := if config.rejectRedundant then unrecognized? g names.size else none
  match redundant with
  | some id => throw (.redundantToken (nameForError names id))
  | none => (Automaton.ofGraph? g names).mapError .malformedAutomaton

/-- Builds the automaton of some entries. -/
def compileEntries (entries : List ScriptEntry) (config : BuildConfig) :
    Except CompileError Automaton := do
  let definitions ← definitionsOf entries
  (compile definitions config).mapError .build

/-- Builds the automaton of a script. -/
def compileScript (script : String) (config : BuildConfig) : Except CompileError Automaton := do
  let entries ← (Script.entries script).mapError .text
  compileEntries entries config

end Munch

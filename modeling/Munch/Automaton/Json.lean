import Munch.Automaton.Basic
import Munch.Json.Amount
import Munch.Json.Reader
import Munch.Json.Writer

/-!
# Automata as JSON

An automaton is written as the version of the format, the names of its tokens and
its states.  A state is its final flag and its edges, and an edge is the boundaries
of its label and its target.
-/

namespace Munch

/-- Why a text is not an automaton. -/
inductive DecodeError where
  | notJson
  | unsupportedVersion (version : Binary64)
  | noStates
  | malformedLabel (state : Nat)
  | missingTarget (state target : Nat)
  | unknownToken (state : Nat) (id : Int)
  | automaton (fault : AutomatonFault)
deriving DecidableEq, Repr

/-- The wording of a decode error; what is wrong with JSON is not told. -/
def DecodeError.message? : DecodeError → Option String
  | notJson => none
  | unsupportedVersion version => some s!"Unsupported DFA version {version.text}"
  | noStates => some "DFA has no states"
  | malformedLabel state => some s!"Malformed edge label in state {state}"
  | missingTarget state target => some s!"Edge from state {state} targets missing state {target}"
  | unknownToken state id => some s!"Final edge in state {state} names unknown token {id}"
  | automaton fault => some s!"Malformed automaton: {fault.message}"

namespace Automaton

/-! ## Writing -/

/-- The major version of the format. -/
def formatVersion : Nat := 2

/-- An edge as a value. -/
def encodeEdge (e : Edge) : Json :=
  .array [.array (e.label.boundaries.map Json.int), Json.int e.target]

/-- A state as a value. -/
def encodeState (s : State) : Json := .array [.bool s.isFinal, .array (s.edges.map encodeEdge)]

/-- An automaton as a value. -/
def encode (a : Automaton) : Json :=
  .object
    [(some "version", .number ⟨false, formatVersion, [0], none⟩),
      (some "tokens", .array (a.names.toList.map Json.string)),
      (some "states", .array (a.graph.states.toList.map encodeState))]

/-- An automaton as a text. -/
def toJson (a : Automaton) : String := a.encode.compactText

/-! ## The form -/

/-- An edge whose label and target have not been checked. -/
structure RawEdge where
  boundaries : List Int
  target : Nat
deriving DecidableEq, Repr

/-- A state whose edges have not been checked. -/
structure RawState where
  isFinal : Bool
  edges : List RawEdge
deriving DecidableEq, Repr

/-- What a text says, before any check. -/
structure Raw where
  version : Binary64
  names : List String
  states : List RawState
deriving DecidableEq, Repr

/-- A boundary: an integer of 32 bits. -/
def decodeBoundary? (v : Json) : Option Int := do
  let n ← v.int?
  if -2147483648 ≤ n ∧ n < 2147483648 then some n else none

/-- The number of a state: an integer of 64 bits without a sign. -/
def decodeTarget? (v : Json) : Option Nat := do
  let n ← v.int?
  if 0 ≤ n ∧ n < 18446744073709551616 then some n.toNat else none

/-- An edge. -/
def decodeEdge? : Json → Option RawEdge
  | .array [label, target] => do
    let items ← label.items?
    let boundaries ← items.mapM decodeBoundary?
    let target ← decodeTarget? target
    return ⟨boundaries, target⟩
  | _ => none

/-- A state. -/
def decodeState? : Json → Option RawState
  | .array [isFinal, edges] => do
    let isFinal ← isFinal.bool?
    let items ← edges.items?
    let edges ← items.mapM decodeEdge?
    return ⟨isFinal, edges⟩
  | _ => none

/-- The version of the format. -/
def decodeVersion? : Json → Option Binary64
  | .number d => d.amount?
  | _ => none

/-- The three parts of an automaton. -/
def decodeParts? (version tokens states : Json) : Option Raw := do
  let version ← decodeVersion? version
  let names ← tokens.items?
  let names ← names.mapM Json.string?
  let items ← states.items?
  let states ← items.mapM decodeState?
  return ⟨version, names, states⟩

/-- The only member of an object with a name. -/
def member? (members : List (Option String × Json)) (name : String) : Option Json :=
  match members.filter fun m => m.1 = some name with
  | [m] => some m.2
  | _ => none

/-- What a value says: an object with the three parts and members to be ignored, or
the three parts in an array. -/
def decodeRaw? : Json → Option Raw
  | .object members =>
    if members.all fun m => m.1.isSome then do
      let version ← member? members "version"
      let tokens ← member? members "tokens"
      let states ← member? members "states"
      decodeParts? version tokens states
    else none
  | .array [version, tokens, states] => decodeParts? version tokens states
  | _ => none

/-! ## The checks -/

/-- Checks the target and the label of an edge among `count` states. -/
def checkEdge (count i : Nat) (e : RawEdge) : Except DecodeError Edge :=
  if count ≤ e.target then .error (.missingTarget i e.target)
  else
    match CodeSet.ofBoundaries? e.boundaries with
    | some label => if label.isEmpty then .error (.malformedLabel i) else .ok ⟨label, e.target⟩
    | none => .error (.malformedLabel i)

/-- Checks the edges of a state among `count` states. -/
def checkState (count : Nat) (entry : RawState × Nat) : Except DecodeError State := do
  let edges ← entry.1.edges.mapM (checkEdge count entry.2)
  return ⟨entry.1.isFinal, edges⟩

/-- Checks that an edge into a final state starts with the marker of a token. -/
def checkMarker (g : Graph) (tokens i : Nat) (e : Edge) : Except DecodeError Unit :=
  match e.label.first? with
  | none => .ok ()
  | some code =>
    let token := Code.tokenOf code
    if g.isFinal e.target && !(Code.isMarker code && decide (0 ≤ token ∧ token < tokens)) then
      .error (.unknownToken i token)
    else .ok ()

/-- Checks the markers of all edges into final states. -/
def checkMarkers (g : Graph) (tokens : Nat) : Except DecodeError Unit :=
  (List.range g.size).forM fun i => (g.edges i).forM (checkMarker g tokens i)

/-- Checks what a text says. -/
def ofRaw? (raw : Raw) : Except DecodeError Automaton := do
  if raw.version.floor ≠ (formatVersion : Int) then throw (.unsupportedVersion raw.version)
  if raw.states.isEmpty then throw .noStates
  let states ← raw.states.zipIdx.mapM (checkState raw.states.length)
  let g : Graph := ⟨states.toArray⟩
  let names := raw.names.toArray
  checkMarkers g names.size
  (ofGraph? g names).mapError .automaton

/-- Reads an automaton. -/
def ofJson? (text : String) : Except DecodeError Automaton :=
  match (Json.parse? text.toList).bind decodeRaw? with
  | none => .error .notJson
  | some raw => ofRaw? raw

end Automaton
end Munch

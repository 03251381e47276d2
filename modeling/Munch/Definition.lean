import Munch.Pattern.Reader
import Munch.Priority
import Munch.Script

/-!
# Definitions of tokens

Definitions are made from entries one after the other.  Each may refer to those
before it, and those that are not anonymous are numbered.

Main results:

- Theorem {lit}`FragmentTable.lookup_insert_self`: the latest entry of a name
  counts.
-/

namespace Munch

/-- A name with the fragment of its pattern; anonymous ones have no id. -/
structure TokenDefinition where
  name : String
  id : Option Int
  fragment : Fragment
deriving DecidableEq

/-- Fragments by name, the latest first. -/
abbrev FragmentTable := List (String × Fragment)

namespace FragmentTable

/-- The fragment with a name, the latest if there are several. -/
def lookup (table : FragmentTable) (name : String) : Option Fragment :=
  (table.find? fun entry => entry.1 = name).map Prod.snd

/-- Adds a fragment in front of those that were there. -/
def insert (table : FragmentTable) (name : String) (f : Fragment) : FragmentTable :=
  (name, f) :: table

@[simp]
theorem lookup_insert_self (table : FragmentTable) (name : String) (f : Fragment) :
    (table.insert name f).lookup name = some f := by
  simp [lookup, insert]

theorem lookup_insert_of_ne (table : FragmentTable) {name other : String} (f : Fragment)
    (h : name ≠ other) : (table.insert name f).lookup other = table.lookup other := by
  simp [lookup, insert, h]

end FragmentTable

/-- Why definitions cannot be made into an automaton. -/
inductive BuildError where
  | noTokens
  | duplicateToken (name : String)
  | invalidTokenId (name : String) (id expected : Int)
  | zeroLengthToken (name : String)
  | redundantToken (name : String)
  | malformedAutomaton (fault : AutomatonFault)
deriving DecidableEq, Repr

/-- The wording of a build error. -/
def BuildError.message : BuildError → String
  | noTokens => "No token definitions"
  | duplicateToken name => s!"Duplicate token name '{name}'"
  | invalidTokenId name id expected => s!"Token '{name}' has id {id}, expected {expected}"
  | zeroLengthToken name => s!"Token '{name}' can match a zero-length string"
  | redundantToken name => s!"Redundant token '{name}' is never recognized"
  | malformedAutomaton fault => s!"Malformed automaton: {fault.message}"

/-- Advice on a build error. -/
def BuildError.help? : BuildError → Option String
  | zeroLengthToken _ => some
      "make the expression consume at least one character, e.g. use '+' instead of '*'"
  | _ => none

/-- What can go wrong on the way from entries to an automaton. -/
inductive CompileError where
  | text (e : SyntaxError)
  | build (e : BuildError)
deriving DecidableEq, Repr

/-- The wording of a compile error. -/
def CompileError.message : CompileError → String
  | text e => e.message
  | build e => e.message

/-- Compiles a pattern against the fragments of earlier ones. -/
def compilePattern (table : FragmentTable) (pattern : String) : Except SyntaxError Fragment :=
  (Pattern.read table.lookup pattern).map Pattern.fragment

/-- Checks the name of an entry and compiles its pattern. -/
def compileEntry (table : FragmentTable) (e : ScriptEntry) : Except CompileError Fragment :=
  if !isTokenName e.name then .error (.text ⟨.badTokenName e.name, e.name, e.line⟩)
  else if (table.lookup e.name).isSome then .error (.build (.duplicateToken e.name))
  else (compilePattern table e.pattern).mapError fun err => .text (err.onLine e.line)

/-- Makes definitions of entries, with a table of those before them and the id of
the next one that is not anonymous. -/
def definitionsFrom (table : FragmentTable) (nextId : Int) :
    List ScriptEntry → Except CompileError (List TokenDefinition)
  | [] => .ok []
  | e :: rest => do
    let f ← compileEntry table e
    let table := table.insert e.name f
    if e.isAnonymous then
      let definitions ← definitionsFrom table nextId rest
      return ⟨e.name, none, f⟩ :: definitions
    else
      let definitions ← definitionsFrom table (nextId + 1) rest
      return ⟨e.name, some nextId, f⟩ :: definitions

/-- Makes definitions of entries, numbering them from zero. -/
def definitionsOf (entries : List ScriptEntry) : Except CompileError (List TokenDefinition) :=
  definitionsFrom [] 0 entries

end Munch

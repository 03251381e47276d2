import Munch.CodeSet.Classes
import Munch.Pattern.Basic
import Munch.Pattern.Error
import Munch.Text.Read
import Munch.TokenName

/-!
# Reading patterns

The grammar, over a text without blanks that are not escaped:

* a choice is a sequence, or a sequence, a bar and a choice;
* a sequence is one or more repeated atoms;
* a repeated atom is an atom, and after it at most one of star, plus and question
  mark;
* an atom is a choice in round brackets, a caret and an atom, a name in braces or
  after a dollar sign, a class in square brackets, or a single code.

Every reader returns what it read and a shorter rest, so reading ends.

Main results:

- Definition {lit}`Pattern.read`: the pattern that a text is read as, or what is wrong
  with it and where.
-/

namespace Munch
namespace Pattern

/-- What went wrong, and the text that had not been read by then. -/
structure Failure where
  fault : SyntaxFault
  unread : List Char
deriving DecidableEq

/-- Reading stopped at a fault. -/
def failed {α : Type} (fault : SyntaxFault) (unread : List Char) : Except Failure α :=
  .error ⟨fault, unread⟩

/-! ## Single codes -/

/-- Characters that are not text: the two control ranges. -/
def isControlChar (c : Char) : Bool := c.toNat < 0x20 || (0x7f ≤ c.toNat && c.toNat < 0xa0)

/-- The value of a hexadecimal digit in either case. -/
def hexDigit? (c : Char) : Option Nat :=
  if c.isDigit then some (c.toNat - 48)
  else if 'a' ≤ c ∧ c ≤ 'f' then some (c.toNat - 87)
  else if 'A' ≤ c ∧ c ≤ 'F' then some (c.toNat - 55)
  else none

/-- Reads a number of hexadecimal digits, after those that make up `value`. -/
def hexDigits : (count : Nat) → (value : Nat) → (s : List Char) →
    Except Failure (Read Nat (s.length + 1))
  | 0, value, s => .ok ⟨value, s, length_lt_succ s⟩
  | _ + 1, _, [] => failed .unexpectedEnd []
  | count + 1, value, c :: s =>
    match hexDigit? c with
    | none => failed .missingHexDigit s
    | some digit => do
      let r ← hexDigits count (16 * value + digit) s
      return r.weaken (Nat.succ_le_succ (length_le_succ s))

/-- The character that a letter after a backslash stands for. -/
def namedEscape? : Char → Option Char
  | 'f' => some '\x0c'
  | 'n' => some '\n'
  | 'r' => some '\r'
  | 't' => some '\t'
  | 's' => some ' '
  | _ => none

/-- The code with a number. -/
def codeOfNat (n : Nat) : CodeSet := CodeSet.single (n : Int)

/-- The code of a character. -/
def codeOfChar (c : Char) : CodeSet := CodeSet.single (Code.ofChar c)

/-- Reads what follows a backslash. -/
def escape : (s : List Char) → Except Failure (Read CodeSet s.length)
  | [] => failed .unexpectedEnd []
  | '0' :: [] => failed .unexpectedEnd []
  | '0' :: x :: s =>
    if x = 'x' ∨ x = 'X' then do
      let r ← hexDigits 2 0 s
      return ⟨codeOfNat r.value, r.rest, by
        have := r.shorter
        simp only [List.length_cons]
        omega⟩
    else failed (.unsupportedEscape x) s
  | c :: s =>
    let done (set : CodeSet) : Except Failure (Read CodeSet (c :: s).length) :=
      .ok ⟨set, s, length_lt_succ s⟩
    let numbered (count : Nat) : Except Failure (Read CodeSet (c :: s).length) := do
      let r ← hexDigits count 0 s
      return ⟨codeOfNat r.value, r.rest, by
        have := r.shorter
        simp only [List.length_cons]
        omega⟩
    if c = 'd' then done CodeSet.digits
    else if c = 'w' then done CodeSet.wordChars
    else if c = 'x' ∨ c = 'X' then numbered 2
    else if c = 'u' ∨ c = 'U' then numbered 4
    else match namedEscape? c with
      | some d => done (codeOfChar d)
      | none => if c.isAlphanum then failed (.unsupportedEscape c) s else done (codeOfChar c)

/-- Reads a literal character or an escape.  A caret is not literal in a class. -/
def code (inClass : Bool) : (s : List Char) → Except Failure (Read CodeSet s.length)
  | [] => failed .unexpectedEnd []
  | '\\' :: s => do
    let r ← escape s
    return r.weaken (length_le_succ s)
  | c :: s =>
    if inClass ∧ c = '^' then failed .illegalBracketChar s
    else if isControlChar c then failed (.illegalControlChar c.toNat) s
    else .ok ⟨codeOfChar c, s, length_lt_succ s⟩

/-! ## Classes -/

/-- The codes from one code to another. -/
def codeRange (first last : CodeSet) (s : List Char) : Except Failure CodeSet :=
  match last.single? with
  | none => failed .illegalBracketArgument s
  | some upper =>
    match first.single? with
    | none => failed .illegalBracketArgument s
    | some lower =>
      if h : lower ≤ upper then .ok (CodeSet.range lower (upper + 1) (Int.lt_add_one_of_le h))
      else failed (.descendingRange lower upper) s

/-- Reads a code, or two codes around a hyphen for the range between them. -/
def classMember (s : List Char) : Except Failure (Read CodeSet s.length) := do
  let first ← code true s
  match hs : first.rest with
  | '-' :: rest =>
    if first.value.single?.isNone then failed .illegalBracketArgument rest
    else
      let last ← code true rest
      let set ← codeRange first.value last.value last.rest
      return ⟨set, last.rest, by
        have h := first.shorter
        have h' := last.shorter
        rw [hs] at h
        simp only [List.length_cons] at h
        omega⟩
  | _ => return first

/-- A class that has been read in part. -/
structure ClassSoFar where
  /-- The codes of the class, or of its complement if it started with a caret. -/
  set : CodeSet
  /-- Whether a caret was read. -/
  negated : Bool
  /-- Whether a code must follow before the class can end. -/
  expecting : Bool
  /-- Whether codes were read before any caret. -/
  hadInitial : Bool

namespace ClassSoFar

/-- Nothing has been read. -/
def start : ClassSoFar := ⟨CodeSet.empty, false, true, false⟩

/-- A caret was read: from here on codes are taken away. -/
def negate (c : ClassSoFar) : ClassSoFar := { c with negated := true, expecting := true }

/-- A member was read.  It is taken away from what came before the caret; if
nothing did, the members are collected, to be left out at the end. -/
def add (c : ClassSoFar) (member : CodeSet) : ClassSoFar :=
  if c.negated && c.hadInitial then { c with set := c.set.diff member, expecting := false }
  else { c with
    set := c.set.union member, expecting := false, hadInitial := c.hadInitial || !c.negated }

/-- The codes of the whole class. -/
def result (c : ClassSoFar) : CodeSet :=
  if c.negated && !c.hadInitial then c.set.toggleChars else c.set

end ClassSoFar

/-- Reads members up to the closing bracket.  The first caret is no member, and
neither is a bracket unless a member must follow. -/
def classMembers (c : ClassSoFar) (s : List Char) : Except Failure (Read CodeSet s.length) :=
  if hcaret : s.head? = some '^' ∧ c.negated = false then do
    let r ← classMembers c.negate s.tail
    return r.weaken (Nat.le_of_lt (length_tail_lt hcaret.1))
  else if hend : s.head? = some ']' ∧ c.expecting = false then
    if c.result.isEmpty then failed .emptyClass s.tail
    else .ok ⟨c.result, s.tail, length_tail_lt hend.1⟩
  else do
    let member ← classMember s
    have hmember := member.shorter
    let r ← classMembers (c.add member.value) member.rest
    return r.weaken (Nat.le_of_lt hmember)
termination_by s.length
decreasing_by
  · exact length_tail_lt hcaret.1
  · exact hmember

/-! ## References -/

/-- Looks a name up, and if it is not there the anonymous definition of that name. -/
def resolveName {ρ : Type} (resolve : String → Option ρ) (name : List Char) (rest : List Char) :
    Except Failure ρ :=
  if isNameList name then
    match resolve (String.ofList name) <|> resolve (String.ofList ('_' :: name)) with
    | some r => .ok r
    | none => failed (.undefinedToken (String.ofList name)) rest
  else failed (.badTokenName (String.ofList name)) rest

/-- Reads a name and the brace that closes it. -/
def bracedName {ρ : Type} (resolve : String → Option ρ) (s : List Char) :
    Except Failure (Read ρ s.length) :=
  match hs : s.dropWhile (· != '\x7d') with
  | [] => failed .unexpectedEnd []
  | _ :: rest => do
    let r ← resolveName resolve (s.takeWhile (· != '\x7d')) rest
    return ⟨r, rest, by
      have h := (List.dropWhile_suffix (l := s) (· != '\x7d')).length_le
      rw [hs, List.length_cons] at h
      omega⟩

/-- Reads the longest name. -/
def bareName {ρ : Type} (resolve : String → Option ρ) (s : List Char) :
    Except Failure (Read ρ (s.length + 1)) := do
  let rest := s.dropWhile isNameChar
  let r ← resolveName resolve (s.takeWhile isNameChar) rest
  return ⟨r, rest, Nat.lt_succ_of_le (List.dropWhile_suffix _).length_le⟩

/-! ## Expressions -/

/-- How often an expression may occur that has this character after it. -/
def repetition? : Char → Option Repetition
  | '*' => some .zeroOrMore
  | '+' => some .oneOrMore
  | '?' => some .optional
  | _ => none

/-- Characters that no atom starts with. -/
def isOperator (c : Char) : Bool := ['*', '+', '?', ')', '|'].contains c

mutual

/-- Reads sequences separated by bars. -/
def choices {ρ : Type} (resolve : String → Option ρ) (s : List Char) :
    Except Failure (Read (Pattern ρ) s.length) := do
  let first ← sequenceOf resolve s
  have hfirst := first.shorter
  match hs : first.rest with
  | '|' :: rest =>
    have hrest : rest.length + 1 = first.rest.length := by rw [hs, List.length_cons]
    let second ← choices resolve rest
    return ⟨.choice first.value second.value, second.rest, by
      have := second.shorter
      omega⟩
  | _ => return first
termination_by 4 * s.length + 3

/-- Reads repeated atoms up to a bar, a closing bracket or the end. -/
def sequenceOf {ρ : Type} (resolve : String → Option ρ) (s : List Char) :
    Except Failure (Read (Pattern ρ) s.length) := do
  let first ← repeatedAtom resolve s
  have hfirst := first.shorter
  let r ← sequenceFrom resolve first.value first.rest
  return r.weaken (by omega)
termination_by 4 * s.length + 2

/-- Reads what follows the part of a sequence that was read already. -/
def sequenceFrom {ρ : Type} (resolve : String → Option ρ) (p : Pattern ρ) (s : List Char) :
    Except Failure (Read (Pattern ρ) (s.length + 1)) :=
  if s.head?.all (fun c => c = '|' ∨ c = ')') then .ok ⟨p, s, Nat.lt_succ_self _⟩
  else do
    let next ← repeatedAtom resolve s
    have hnext := next.shorter
    let r ← sequenceFrom resolve (.sequence p next.value) next.rest
    return r.weaken (by omega)
termination_by 4 * s.length + 2

/-- Reads an atom and how often it may occur. -/
def repeatedAtom {ρ : Type} (resolve : String → Option ρ) (s : List Char) :
    Except Failure (Read (Pattern ρ) s.length) := do
  let p ← atom resolve s
  have hp := p.shorter
  match hs : p.rest with
  | c :: rest =>
    match repetition? c with
    | some how => return ⟨.repeated p.value how, rest, by
        rw [hs, List.length_cons] at hp
        omega⟩
    | none => return p
  | [] => return p
termination_by 4 * s.length + 1

/-- Reads a bracketed expression, a complement, a reference, a class or a code. -/
def atom {ρ : Type} (resolve : String → Option ρ) (s : List Char) :
    Except Failure (Read (Pattern ρ) s.length) :=
  match s with
  | [] => failed .unexpectedEnd []
  | '(' :: s => do
    let inner ← choices resolve s
    match hs : inner.rest with
    | ')' :: rest => return ⟨inner.value, rest, by
        have h := inner.shorter
        rw [hs] at h
        simp only [List.length_cons] at *
        omega⟩
    | _ :: rest => failed (.expected ')') rest
    | [] => failed .unexpectedEnd []
  | '^' :: s => do
    let inner ← atom resolve s
    return ⟨.complement inner.value, inner.rest, by
      have := inner.shorter
      simp only [List.length_cons]
      omega⟩
  | '\x7b' :: s => do
    let r ← bracedName resolve s
    return ⟨.reference r.value, r.rest, by
      have := r.shorter
      simp only [List.length_cons]
      omega⟩
  | '$' :: s => do
    let r ← bareName resolve s
    return ⟨.reference r.value, r.rest, r.shorter⟩
  | '[' :: s => do
    let r ← classMembers ClassSoFar.start s
    return ⟨.codes r.value, r.rest, by
      have := r.shorter
      simp only [List.length_cons]
      omega⟩
  | c :: s =>
    if isOperator c then failed (.unexpectedChar c) s
    else do
      let r ← code false (c :: s)
      return ⟨.codes r.value, r.rest, r.shorter⟩
termination_by 4 * s.length

end

/-! ## Whole texts -/

/-- Drops spaces and tabs that no backslash escapes. -/
def dropBlanks (escaped : Bool) : List Char → List Char
  | [] => []
  | c :: s =>
    if (c = ' ' ∨ c = '\t') ∧ escaped = false then dropBlanks false s
    else c :: dropBlanks (c = '\\' && !escaped) s

/-- Up to three characters on both sides of the place before the one read last,
with dots where more was cut off. -/
def excerptAt (text unread : List Char) : String :=
  let place := text.length - unread.length - 1
  let before := (text.take place).drop (place - 3)
  let after := text.drop place
  let front := if place > 4 then "..." else ""
  let back := if after.length > 3 then "..." else ""
  front ++ String.ofList before ++ " !!! " ++ String.ofList (after.take 3) ++ back

/-- Reads a text without blanks as one pattern. -/
def readAll {ρ : Type} (resolve : String → Option ρ) (text : List Char) :
    Except Failure (Pattern ρ) := do
  let r ← choices resolve text
  match r.rest with
  | [] => return r.value
  | c :: rest => failed (.unexpectedChar c) rest

/-- Reads a pattern whose references are looked up by name. -/
def read {ρ : Type} (resolve : String → Option ρ) (text : String) :
    Except SyntaxError (Pattern ρ) :=
  let chars := dropBlanks false text.toList
  (readAll resolve chars).mapError fun f => ⟨f.fault, excerptAt chars f.unread, none⟩

end Pattern
end Munch

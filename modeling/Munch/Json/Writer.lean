import Munch.Json.Basic

/-!
# Writing JSON

Values are written without blanks, or over several lines with two blanks for each
level.

Main results:

- Definitions {lit}`Json.compactText` and {lit}`Json.spreadText`: the text of a value
  on one line and over several.
-/

namespace Munch
namespace Json

/-- Two digits of a number below 256 in lower-case hexadecimal. -/
def hexPair (n : Nat) : List Char := [Nat.digitChar (n / 16), Nat.digitChar (n % 16)]

/-- A character within a text: quotes, backslashes and control characters are
escaped. -/
def escaped (c : Char) : List Char :=
  if c = '"' then ['\\', '"']
  else if c = '\\' then ['\\', '\\']
  else if c = '\n' then ['\\', 'n']
  else if c = '\r' then ['\\', 'r']
  else if c = '\t' then ['\\', 't']
  else if c = '\x08' then ['\\', 'b']
  else if c = '\x0c' then ['\\', 'f']
  else if c.toNat < 0x20 then '\\' :: 'u' :: '0' :: '0' :: hexPair c.toNat
  else [c]

/-- A text in quotes. -/
def quoted (s : String) : List Char := '"' :: (s.toList.flatMap escaped ++ ['"'])

/-- A number as its digits. -/
def Decimal.written (d : Decimal) : List Char :=
  let sign := if d.negative then ['-'] else []
  let point := if d.fraction.isEmpty then [] else '.' :: d.fraction.map Nat.digitChar
  let power := match d.exponent with
    | none => []
    | some e => 'e' :: (toString e).toList
  sign ++ Nat.toDigits 10 d.whole ++ point ++ power

/-- Puts a separator between lists of characters. -/
def joined (separator : List Char) : List (List Char) → List Char
  | [] => []
  | [part] => part
  | part :: rest => part ++ separator ++ joined separator rest

mutual

/-- A value without blanks.  What is no text is written as an empty one. -/
def compact : Json → List Char
  | null => "null".toList
  | bool b => (if b then "true" else "false").toList
  | number d => d.written
  | text t => quoted (t.getD "")
  | array items => '[' :: (joined [','] (compactItems items) ++ [']'])
  | object members => '\x7b' :: (joined [','] (compactMembers members) ++ ['\x7d'])

/-- The items of an array without blanks. -/
def compactItems : List Json → List (List Char)
  | [] => []
  | v :: rest => compact v :: compactItems rest

/-- The members of an object without blanks. -/
def compactMembers : List (Option String × Json) → List (List Char)
  | [] => []
  | (name, v) :: rest =>
    (quoted (name.getD "") ++ ':' :: compact v) :: compactMembers rest

end

/-- The start of a line at some level. -/
def newLine (level : Nat) : List Char := '\n' :: List.replicate (2 * level) ' '

/-- Lines at a level, between brackets that stand one level further out. -/
def enclosed (opening closing : Char) (level : Nat) (parts : List (List Char)) : List Char :=
  if parts.isEmpty then [opening, closing]
  else
    let body := joined (',' :: newLine (level + 1)) parts
    opening :: (newLine (level + 1) ++ body ++ newLine level ++ [closing])

mutual

/-- A value over several lines, within something at some level. -/
def spread (level : Nat) : Json → List Char
  | array items => enclosed '[' ']' level (spreadItems (level + 1) items)
  | object members => enclosed '\x7b' '\x7d' level (spreadMembers (level + 1) members)
  | null => compact null
  | bool b => compact (bool b)
  | number d => compact (number d)
  | text t => compact (text t)

/-- The items of an array over several lines. -/
def spreadItems (level : Nat) : List Json → List (List Char)
  | [] => []
  | v :: rest => spread level v :: spreadItems level rest

/-- The members of an object over several lines. -/
def spreadMembers (level : Nat) : List (Option String × Json) → List (List Char)
  | [] => []
  | (name, v) :: rest =>
    (quoted (name.getD "") ++ ':' :: ' ' :: spread level v) :: spreadMembers level rest

end

/-- The text of a value without blanks. -/
def compactText (v : Json) : String := String.ofList v.compact

/-- The text of a value over several lines. -/
def spreadText (v : Json) : String := String.ofList (v.spread 0)

end Json
end Munch

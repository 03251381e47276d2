/-!
# Syntax errors

What can be wrong with a pattern or with a script of definitions, and where.
-/

namespace Munch

/-- What is wrong with a pattern or a line of a script. -/
inductive SyntaxFault where
  | unexpectedEnd
  | unexpectedChar (found : Char)
  | expected (char : Char)
  | illegalControlChar (code : Nat)
  | unsupportedEscape (found : Char)
  | missingHexDigit
  | illegalBracketChar
  | illegalBracketArgument
  | descendingRange (lower upper : Int)
  | emptyClass
  | badTokenName (name : String)
  | undefinedToken (name : String)
  | malformedLine
  | incompleteFinalLine
deriving DecidableEq, Repr

/-- A fault with the piece of text around it, and the line it was found on if the
text came from a script. -/
structure SyntaxError where
  fault : SyntaxFault
  excerpt : String
  line : Option Nat
deriving DecidableEq, Repr

/-- A number in lower-case hexadecimal digits. -/
def hexText (n : Nat) : String := "0x" ++ String.ofList (Nat.toDigits 16 n)

/-- The wording of a fault. -/
def SyntaxFault.message : SyntaxFault → String
  | unexpectedEnd => "Unexpected end of input"
  | unexpectedChar found => s!"Unexpected character '{found}'"
  | expected char => s!"Expected '{char}'"
  | illegalControlChar code => s!"Illegal control character {hexText code}"
  | unsupportedEscape found => s!"Unsupported escape sequence '\\{found}'"
  | missingHexDigit => "Missing hex digit"
  | illegalBracketChar => "Illegal character within [ ]"
  | illegalBracketArgument => "Illegal bracket argument"
  | descendingRange lower upper => s!"Illegal range {lower}..{upper}"
  | emptyClass => "Empty character range"
  | badTokenName name => s!"Bad token name '{name}'"
  | undefinedToken name => s!"Undefined token '{name}'"
  | malformedLine => "Syntax error"
  | incompleteFinalLine => "Incomplete final line"

namespace SyntaxError

/-- The wording of an error: the fault, the piece of text, and the line. -/
def message (e : SyntaxError) : String :=
  let place := match e.line with
    | some line => s!", line {line}"
    | none => ""
  s!"{e.fault.message}: {e.excerpt}{place}"

/-- The error, found on a line if one is known. -/
def onLine (e : SyntaxError) (line : Option Nat) : SyntaxError :=
  { e with line := line <|> e.line }

end SyntaxError
end Munch

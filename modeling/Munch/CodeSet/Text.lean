import Munch.CodeSet.Basic

/-!
# Text of code sets

Sets are shown as their ranges, with a character where one can be read without
doubt and a number elsewhere.  Token markers are shown as the token's id.
-/

namespace Munch
namespace Code

/-- Characters with a meaning in patterns or listings are shown as numbers. -/
def reservedInText : List Char := ['\'', '"', '\\', '[', ']', '\x7b', '\x7d', '(', ')']

/-- Whether a code is shown as its character. -/
def isShownAsChar (code : Int) : Bool :=
  0x21 ≤ code && code ≤ 0x7e && !reservedInText.contains (Char.ofNat code.toNat)

/-- The text of one code. -/
def text (code : Int) : String :=
  if code = silent then "(e)"
  else if isMarker code then s!"<{tokenOf code}>"
  else if code = charLimit - 1 then "MAX"
  else if isShownAsChar code then String.singleton (Char.ofNat code.toNat)
  else toString code

end Code

namespace CodeSet

/-- The text of one range: both ends, or one code if there is only one. -/
def rangeText (r : Int × Int) : String :=
  if r.2 = r.1 + 1 then Code.text r.1 else s!"{Code.text r.1}..{Code.text (r.2 - 1)}"

/-- The ranges of a set, separated by spaces. -/
def text (s : CodeSet) : String := " ".intercalate (s.ranges.map rangeText)

/-- The boundaries of a set as they are kept. -/
def boundaryText (s : CodeSet) : String :=
  "CodeSet[" ++ ", ".intercalate (s.boundaries.map toString) ++ "]"

end CodeSet
end Munch

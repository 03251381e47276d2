/-!
# Blanks and backslashes

The characters with the Unicode property of being white space, and the run of backslashes at the
end of a text.  Whether such a run is odd decides if it escapes what comes behind it.

Main results:

- Definition {lit}`isBlank`: whether a character is blank.
- Definition {lit}`words`: the pieces of a text between blanks.
- Definition {lit}`backslashes`: the length of the run of backslashes at the end of a text.
-/

namespace Munch

/-- Whether a character is white space. -/
def isBlank (c : Char) : Bool :=
  let n := c.toNat
  (0x09 ≤ n && n ≤ 0x0d) || n = 0x20 || n = 0x85 || n = 0xa0 || n = 0x1680 ||
    (0x2000 ≤ n && n ≤ 0x200a) || n = 0x2028 || n = 0x2029 || n = 0x202f || n = 0x205f ||
    n = 0x3000

/-- A text without the blanks in front. -/
def dropBlank (s : List Char) : List Char := s.dropWhile isBlank

/-- A text without the blanks at its end. -/
def dropBlankEnd (s : List Char) : List Char := (s.reverse.dropWhile isBlank).reverse

/-- The pieces of a text between blanks, without empty ones.  `word` holds the
current piece, its last character first. -/
def wordsFrom (word : List Char) : List Char → List (List Char)
  | [] => if word.isEmpty then [] else [word.reverse]
  | c :: s =>
    if isBlank c then
      if word.isEmpty then wordsFrom [] s else word.reverse :: wordsFrom [] s
    else wordsFrom (c :: word) s

/-- The pieces of a text between blanks. -/
def words (s : String) : List String := (wordsFrom [] s.toList).map String.ofList

/-- The length of the run of backslashes that a text ends in. -/
def backslashes (s : List Char) : Nat := (s.reverse.takeWhile (· = '\\')).length

/-- A backslash makes the run longer, and any other character ends it. -/
theorem backslashes_concat (s : List Char) (c : Char) :
    backslashes (s ++ [c]) = if c = '\\' then backslashes s + 1 else 0 := by
  by_cases hc : c = '\\' <;> simp [backslashes, hc]

end Munch

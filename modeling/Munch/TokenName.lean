/-!
# Names of tokens

A name starts with a Latin letter or a low line and goes on with these and
decimal digits.  A low line in front makes the definition anonymous.
-/

namespace Munch

/-- Characters that a name can start with. -/
def isNameStart (c : Char) : Bool := c = '_' || c.isAlpha

/-- Characters that a name can go on with. -/
def isNameChar (c : Char) : Bool := c = '_' || c.isAlphanum

/-- Whether some characters make a name. -/
def isNameList : List Char → Bool
  | [] => false
  | c :: rest => isNameStart c && rest.all isNameChar

/-- Whether a text is the name of a token. -/
def isTokenName (name : String) : Bool := isNameList name.toList

/-- Whether a name is that of a definition that makes no tokens. -/
def isAnonymousName (name : String) : Bool := name.toList.head? == some '_'

theorem isNameChar_of_isNameStart {c : Char} (h : isNameStart c = true) :
    isNameChar c = true := by
  simp only [isNameStart, isNameChar, Char.isAlphanum, Bool.or_eq_true] at *
  rcases h with h | h
  · exact Or.inl h
  · exact Or.inr (Or.inl h)

end Munch

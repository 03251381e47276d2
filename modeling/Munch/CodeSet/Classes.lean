import Munch.CodeSet.Basic

/-!
# Named classes of characters

The two classes that patterns have a short form for.
-/

namespace Munch
namespace CodeSet

/-- The decimal digits. -/
def digits : CodeSet := range 48 58 (by decide)

/-- The letters of the Latin alphabet in both cases, the digits and the low line. -/
def wordChars : CodeSet :=
  ((digits.insert 95).union (range 97 123 (by decide))).union (range 65 91 (by decide))

end CodeSet
end Munch

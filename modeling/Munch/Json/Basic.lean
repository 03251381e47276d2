/-!
# JSON values

Values as they are written: numbers keep their decimal digits, members of objects
keep their order, and a text with half of a surrogate pair is kept as no text.

Main results:

- Theorem {lit}`Json.Decimal.toInt?_ofInt`: an integer is read as it is written.
-/

namespace Munch
namespace Json

/-- A number in decimal notation. -/
structure Decimal where
  negative : Bool
  whole : Nat
  /-- The digits after the point; there is no point if there are none. -/
  fraction : List Nat
  exponent : Option Int
deriving DecidableEq, Repr

namespace Decimal

/-- An integer. -/
def ofInt (n : Int) : Decimal := ⟨decide (n < 0), n.natAbs, [], none⟩

/-- The integer that is written, if there is neither a point nor an exponent.  Zero
with a sign is no integer. -/
def toInt? (d : Decimal) : Option Int :=
  if d.fraction.isEmpty && d.exponent.isNone then
    if d.negative then if d.whole = 0 then none else some (-(d.whole : Int))
    else some (d.whole : Int)
  else none

/-- An integer is read as it is written. -/
@[simp]
theorem toInt?_ofInt (n : Int) : (ofInt n).toInt? = some n := by
  unfold toInt? ofInt
  by_cases h : n < 0
  · have hne : n.natAbs ≠ 0 := by omega
    have habs : -(n.natAbs : Int) = n := by omega
    simp only [h, decide_true, List.isEmpty_nil, Option.isNone_none, Bool.and_self, if_true, hne,
      if_false, habs]
  · have habs : (n.natAbs : Int) = n := by omega
    simp only [h, decide_false, List.isEmpty_nil, Option.isNone_none, Bool.and_self, if_true,
      Bool.false_eq_true, if_false, habs]

end Decimal
end Json

/-- A value. -/
inductive Json where
  | null
  | bool (b : Bool)
  | number (d : Json.Decimal)
  /-- A text; `none` stands for one with half of a surrogate pair. -/
  | text (t : Option String)
  | array (items : List Json)
  | object (members : List (Option String × Json))
deriving Inhabited

namespace Json

/-- The value of an integer. -/
def int (n : Int) : Json := number (Decimal.ofInt n)

/-- The value of a text. -/
def string (s : String) : Json := text (some s)

/-- The items of an array. -/
def items? : Json → Option (List Json)
  | array items => some items
  | _ => none

/-- The integer of a number. -/
def int? : Json → Option Int
  | number d => d.toInt?
  | _ => none

/-- A truth value. -/
def bool? : Json → Option Bool
  | bool b => some b
  | _ => none

/-- A text. -/
def string? : Json → Option String
  | text t => t
  | _ => none

end Json
end Munch

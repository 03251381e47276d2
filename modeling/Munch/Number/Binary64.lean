/-!
# Binary floating-point numbers

Finite numbers of 64 bits, kept as a sign, an integer and a power of two.  Results
of operations are rounded to the nearest number, and to the even one of two.  The
text of a number has the fewest digits that read back as that number.

Main results:

- Definition {lit}`Binary64.ofRatio?`: the number next to a quotient.
- Definition {lit}`Binary64.text`: the shortest text of a number.
-/

namespace Munch

/-- The quotient of two numbers, rounded to the nearest integer and to the even one
of two. -/
def roundDiv (num den : Nat) : Nat :=
  let q := num / den
  let r := num % den
  if den < 2 * r ∨ (2 * r = den ∧ q % 2 = 1) then q + 1 else q

/-- The finite number whose amount is `mantissa * 2 ^ exponent`. -/
structure Binary64 where
  negative : Bool
  mantissa : Nat
  exponent : Int
deriving DecidableEq, Repr

namespace Binary64

/-- The smallest exponent. -/
def minExponent : Int := -1074

/-- The largest mantissas have this many bits. -/
def precision : Nat := 53

/-- One past the largest mantissa. -/
def mantissaLimit : Nat := Nat.pow 2 precision

/-- Multiplies by a power of two with an exponent that is not negative. -/
def scaleUp (n : Nat) (e : Int) : Nat := n * Nat.pow 2 e.toNat

/-- The largest exponent. -/
def maxExponent : Int := 971

/-- The number with a rounded mantissa.  Rounding up may reach the limit, and then
the next exponent has a smaller mantissa; there is no number beyond the largest
exponent. -/
def ofRounded? (negative : Bool) (mantissa : Nat) (exponent : Int) : Option Binary64 :=
  if mantissaLimit ≤ mantissa then
    if maxExponent ≤ exponent then none else some ⟨negative, mantissa / 2, exponent + 1⟩
  else if maxExponent < exponent then none
  else some ⟨negative, mantissa, exponent⟩

/-- The number nearest to `num / den * 2 ^ shift`; there is none if that is beyond
all finite numbers. -/
def ofRatio? (negative : Bool) (num den : Nat) (shift : Int) : Option Binary64 :=
  if num = 0 then some ⟨negative, 0, minExponent⟩
  else
    let size : Int := (num.log2 : Int) - den.log2 + shift
    let roundAt (e : Int) : Nat :=
      let d := shift - e
      roundDiv (scaleUp num d) (scaleUp den (-d))
    let low := max (size - precision) minExponent
    let e := if mantissaLimit ≤ roundAt low then low + 1 else low
    ofRounded? negative (roundAt e) e

/-- The number nearest to an integer. -/
def ofNat? (n : Nat) : Option Binary64 := ofRatio? false n 1 0

/-- The product of two amounts. -/
def mul? (a b : Binary64) : Option Binary64 :=
  ofRatio? false (a.mantissa * b.mantissa) 1 (a.exponent + b.exponent)

/-- The quotient of two amounts. -/
def div? (a b : Binary64) : Option Binary64 :=
  ofRatio? false a.mantissa b.mantissa (a.exponent - b.exponent)

/-- The greatest integer that is not larger. -/
def floor (x : Binary64) : Int :=
  let num := scaleUp x.mantissa x.exponent
  let den := scaleUp 1 (-x.exponent)
  if x.negative then -(((num + den - 1) / den : Nat) : Int) else ((num / den : Nat) : Int)

/-! ## Shortest decimals -/

/-- A number `digits * 10 ^ exponent`. -/
structure Scaled where
  digits : Nat
  exponent : Int
deriving DecidableEq, Repr

/-- The numbers that round to a given one lie between two fractions with one
denominator; they belong to it if `closed` holds. -/
structure Interval where
  low : Nat
  value : Nat
  high : Nat
  den : Nat
  closed : Bool
deriving DecidableEq, Repr

/-- The numbers that round to a given one.  Below a power of two the next number is
only half as far away. -/
def interval (x : Binary64) : Interval :=
  let below := if 2 * x.mantissa = mantissaLimit ∧ minExponent < x.exponent then 1 else 2
  let unit := scaleUp 1 x.exponent
  { low := (4 * x.mantissa - below) * unit
    value := 4 * x.mantissa * unit
    high := (4 * x.mantissa + 2) * unit
    den := 4 * scaleUp 1 (-x.exponent)
    closed := x.mantissa % 2 = 0 }

/-- How many digits a positive fraction has before the point; if it has none, how
many zeros follow the point, counted downwards. -/
def decimalPoint (num den : Nat) : Int :=
  if den ≤ num then ((Nat.toDigits 10 (num / den)).length : Int)
  else -((((List.range 400).find? fun z => decide (den ≤ num * Nat.pow 10 (z + 1))).getD 0 : Nat) : Int)

/-- Whether a decimal lies in an interval. -/
def Interval.holds (i : Interval) (s : Scaled) : Bool :=
  let num := s.digits * Nat.pow 10 s.exponent.toNat * i.den
  let unit := Nat.pow 10 (-s.exponent).toNat
  if i.closed then decide (i.low * unit ≤ num ∧ num ≤ i.high * unit)
  else decide (i.low * unit < num ∧ num < i.high * unit)

/-- The neighbours of a value on the decimals with some exponent: the larger one
that is not above it, the next one, and whether the first is nearer. -/
def Interval.neighbours (i : Interval) (exponent : Int) : Scaled × Scaled × Bool :=
  let num := i.value * Nat.pow 10 (-exponent).toNat
  let den := i.den * Nat.pow 10 exponent.toNat
  let q := num / den
  (⟨q, exponent⟩, ⟨q + 1, exponent⟩, decide (2 * (num % den) < den))

/-- The better of the two neighbours with some exponent that lies in the
interval. -/
def Interval.best? (i : Interval) (exponent : Int) : Option Scaled :=
  let (low, high, lowNearer) := i.neighbours exponent
  match i.holds low, i.holds high with
  | true, true => some (if lowNearer then low else high)
  | true, false => some low
  | false, true => some high
  | false, false => none

/-- Moves zeros at the end of the digits into the exponent. -/
def Scaled.strip : Nat → Scaled → Scaled
  | 0, s => s
  | steps + 1, s =>
    if s.digits % 10 = 0 ∧ s.digits ≠ 0 then strip steps ⟨s.digits / 10, s.exponent + 1⟩ else s

/-- The decimal with the fewest digits that rounds to a number, and of those the
nearest.  Seventeen digits are always enough. -/
def shortest (x : Binary64) : Scaled :=
  let i := x.interval
  let point := decimalPoint i.value i.den
  let found := (List.range 17).findSome? fun (n : Nat) => i.best? (point - (n : Int) - 1)
  (found.getD ⟨0, 0⟩).strip 20

/-- The text of a decimal in positional notation, without a point if it is an
integer. -/
def Scaled.text (s : Scaled) : String :=
  let digits := Nat.toDigits 10 s.digits
  if 0 ≤ s.exponent then String.ofList (digits ++ List.replicate s.exponent.toNat '0')
  else
    let places := (-s.exponent).toNat
    let padded := List.replicate (places + 1 - digits.length) '0' ++ digits
    let split := padded.length - places
    String.ofList (padded.take split ++ '.' :: padded.drop split)

/-- The text of a number. -/
def text (x : Binary64) : String :=
  let amount := if x.mantissa = 0 then "0" else x.shortest.text
  if x.negative then "-" ++ amount else amount

end Binary64
end Munch

import Munch.Json.Basic
import Munch.Number.Binary64

/-!
# Amounts of decimals

The binary number for a decimal.  Digits are collected into an integer of 64 bits;
those that no longer fit only count for the exponent.  The integer is then scaled
by a power of ten, with one rounding for each step.

Main results:

- Definition {lit}`Json.Decimal.amount?`: the number for a decimal, unless it is too
  large.
-/

namespace Munch
namespace Json

/-- An integer of 64 bits with a power of ten. -/
structure Significand where
  digits : Nat
  exponent : Int
deriving DecidableEq, Repr

namespace Significand

/-- One past the largest integer of 64 bits. -/
def limit : Nat := 18446744073709551616

/-- Appends the digits of an integer as long as they fit. -/
def ofWhole (collected : Nat) : List Nat → Significand
  | [] => ⟨collected, 0⟩
  | d :: ds =>
    if 10 * collected + d < limit then ofWhole (10 * collected + d) ds
    else ⟨collected, (ds.length : Int) + 1⟩

/-- Appends the digits after the point as long as they fit. -/
def addFraction (s : Significand) : List Nat → Significand
  | [] => s
  | d :: ds =>
    if 10 * s.digits + d < limit then addFraction ⟨10 * s.digits + d, s.exponent - 1⟩ ds else s

end Significand

/-- A power of ten as a binary number. -/
def powerOfTen? (n : Nat) : Option Binary64 := Binary64.ofNat? (Nat.pow 10 n)

/-- The largest power of ten below all limits. -/
def largestPower : Nat := 308

/-- Scales a number by a power of ten; there is none if the result is too large. -/
def scale (x : Binary64) (e : Int) : Option Binary64 :=
  if x.mantissa = 0 then some x
  else if (largestPower : Int) < e then none
  else if 0 ≤ e then do x.mul? (← powerOfTen? e.toNat)
  else if -(largestPower : Int) ≤ e then do x.div? (← powerOfTen? (-e).toNat)
  else do
    let y ← x.div? (← powerOfTen? largestPower)
    scale y (e + largestPower)
termination_by (-e).toNat
decreasing_by
  simp only [largestPower] at *
  omega

/-- The binary number for a decimal; there is none if it is too large. -/
def Decimal.amount? (d : Decimal) : Option Binary64 := do
  let whole := (Nat.toDigits 10 d.whole).map fun c => c.toNat - 48
  let s := (Significand.ofWhole 0 whole).addFraction d.fraction
  let x ← Binary64.ofNat? s.digits
  let scaled ← scale x (s.exponent + d.exponent.getD 0)
  return { scaled with negative := d.negative }

end Json
end Munch

import LuaChecker.Decimal.Numeral

/-!
# The double of a JSON number

A numeral is read as an integer of at most 64 bits and a power of ten, and the double of the
integer is then multiplied or divided by that power. Both steps round, so the result may
differ from the double that is nearest to the numeral. Digits for which the integer has no
room count only by their places.
-/

namespace LuaChecker.Json

open Decimal

/-- Digits gathered into an integer. -/
structure Gathered where
  significand : Nat
  /-- The power of ten that the integer is multiplied with. -/
  exponent : Int
  /-- Whether a digit found no room. -/
  full : Bool
  deriving DecidableEq, Repr

namespace Gathered

/-- The greatest integer that has room. -/
def limit : Nat := Nat.pow 2 64 - 1

/-- One more digit before the point. -/
def addWhole (g : Gathered) (d : Digit) : Gathered :=
  if g.full || limit < 10 * g.significand + d.val then ⟨g.significand, g.exponent + 1, true⟩
  else ⟨10 * g.significand + d.val, g.exponent, false⟩

/-- One more digit behind the point. -/
def addFraction (g : Gathered) (d : Digit) : Gathered :=
  if g.full || limit < 10 * g.significand + d.val then ⟨g.significand, g.exponent, true⟩
  else ⟨10 * g.significand + d.val, g.exponent - 1, false⟩

/-- The digits of a numeral. A digit behind the point may find room where one before the
point found none. -/
def ofNumeral (n : Numeral) : Gathered :=
  let whole := n.whole.foldl addWhole ⟨0, 0, false⟩
  n.fraction.foldl addFraction ⟨whole.significand, whole.exponent, false⟩

end Gathered

def powerOfTen (e : Nat) : Float :=
  Float.ofScientific 1 false e

/-- A double that is not negative, times a power of ten; none if that is too large for a
double. -/
def scale? (x : Float) (e : Int) : Option Float :=
  if 0 ≤ e then
    if e ≤ 308 then
      let y := x * powerOfTen e.toNat
      if y.isInf then none else some y
    else if x == 0.0 then some x
    else none
  else if -308 ≤ e then some (x / powerOfTen e.natAbs)
  else if x == 0.0 then some x
  else scale? (x / powerOfTen 308) (e + 308)
  termination_by e.natAbs
  decreasing_by omega

/-- The double that a numeral is read as; none if it is too large. -/
def double? (n : Numeral) : Option Float :=
  let g := Gathered.ofNumeral n
  (scale? g.significand.toUInt64.toFloat (g.exponent + n.exponent.getD 0)).map fun x =>
    if n.negative then -x else x

end LuaChecker.Json

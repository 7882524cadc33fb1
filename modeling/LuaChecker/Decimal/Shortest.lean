import LuaChecker.Decimal.Digit

/-!
# The shortest decimal of a double

A double is written with the fewest digits that identify it: of all decimals that round to
it, one on the coarsest decimal grid, and there the nearest to it. The search goes from
coarse grids to fine ones and tests the two points next to the value; if a grid has any
point that rounds to the double, it has one among these two.

All arithmetic is exact. A double is `mantissa * 2 ^ exponent`; the decimals that round to
it form an interval around it, whose ends belong to it if the mantissa is even.
-/

namespace LuaChecker.Decimal

/-- A finite double that is not negative: `mantissa * 2 ^ exponent`. -/
structure Dyadic where
  mantissa : Nat
  exponent : Int
  deriving DecidableEq, Repr

inductive Unpacked
  | nan
  | infinite (negative : Bool)
  | finite (negative : Bool) (magnitude : Dyadic)
  deriving DecidableEq, Repr

def unpack (x : Float) : Unpacked :=
  let bits := x.toBits.toNat
  let negative : Bool := bits / Nat.pow 2 63 = 1
  let exponent : Nat := bits / Nat.pow 2 52 % Nat.pow 2 11
  let fraction : Nat := bits % Nat.pow 2 52
  if exponent = 2047 then
    if fraction = 0 then .infinite negative else .nan
  else if exponent = 0 then .finite negative ⟨fraction, -1074⟩
  else .finite negative ⟨Nat.pow 2 52 + fraction, (exponent : Int) - 1075⟩

/-- Which of two equally near decimals is taken. -/
inductive Tie
  | up
  | toEven
  deriving DecidableEq, Repr

/-- A decimal: `coefficient * 10 ^ exponent`. -/
structure Scaled where
  coefficient : Nat
  exponent : Int
  deriving DecidableEq, Repr

namespace Dyadic

/-- Whether the next smaller double is only half as far away as the next greater one. -/
def isNarrow (d : Dyadic) : Bool :=
  d.mantissa = Nat.pow 2 52 && -1074 < d.exponent

/-- The lower end of the interval of numbers that round to a double, in quarters of its last
place. -/
def low (d : Dyadic) : Nat :=
  4 * d.mantissa - if d.isNarrow then 1 else 2

/-- The double itself, in quarters of its last place. -/
def middle (d : Dyadic) : Nat :=
  4 * d.mantissa

/-- The upper end of the interval, in quarters of the last place. -/
def high (d : Dyadic) : Nat :=
  4 * d.mantissa + 2

/-- What a quarter of the last place is multiplied with to compare it with points of the
grid of `10 ^ e`. -/
def quarter (d : Dyadic) (e : Int) : Nat :=
  Nat.pow 2 (d.exponent - 2).toNat * Nat.pow 10 (-e).toNat

/-- What a point of the grid of `10 ^ e` is multiplied with for that comparison. -/
def mesh (d : Dyadic) (e : Int) : Nat :=
  Nat.pow 2 (2 - d.exponent).toNat * Nat.pow 10 e.toNat

/-- Whether `c * 10 ^ e` rounds to the double. -/
def covers (d : Dyadic) (e : Int) (c : Nat) : Bool :=
  let point := c * d.mesh e
  let least := d.low * d.quarter e
  let greatest := d.high * d.quarter e
  if d.mantissa % 2 = 0 then least ≤ point && point ≤ greatest
  else least < point && point < greatest

/-- The last point of the grid of `10 ^ e` that does not exceed the double. -/
def below (d : Dyadic) (e : Int) : Nat :=
  d.middle * d.quarter e / d.mesh e

/-- The nearer of the two points next to the double, where both round to it. -/
def nearer (tie : Tie) (d : Dyadic) (e : Int) : Nat :=
  let c := d.below e
  let down := d.middle * d.quarter e - c * d.mesh e
  let up := (c + 1) * d.mesh e - d.middle * d.quarter e
  if down < up then c
  else if up < down then c + 1
  else
    match tie with
    | .up => c + 1
    | .toEven => if c % 2 = 0 then c else c + 1

/-- The point of the grid of `10 ^ e` to write the double with, if it has one. -/
def onGrid? (tie : Tie) (d : Dyadic) (e : Int) : Option Nat :=
  let c := d.below e
  match d.covers e c, d.covers e (c + 1) with
  | true, true => some (d.nearer tie e)
  | true, false => some c
  | false, true => some (c + 1)
  | false, false => none

/-- The search for the coarsest grid, from that of `10 ^ e` on. -/
def shortestFrom (tie : Tie) (d : Dyadic) : Nat → Int → Scaled
  | 0, e => ⟨d.below e, e⟩
  | steps + 1, e =>
    match d.onGrid? tie e with
    | some c => ⟨c, e⟩
    | none => shortestFrom tie d steps (e - 1)

/-- The number of digits of the integral part of the double. -/
def integralDigits (d : Dyadic) : Nat :=
  (digits (d.mantissa * Nat.pow 2 d.exponent.toNat / Nat.pow 2 (-d.exponent).toNat)).length

/-- The shortest decimal of a double other than zero. -/
def shortest (tie : Tie) (d : Dyadic) : Scaled :=
  d.shortestFrom tie (d.integralDigits + 1100) d.integralDigits

end Dyadic

end LuaChecker.Decimal

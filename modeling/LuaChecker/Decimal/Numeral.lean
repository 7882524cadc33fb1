import LuaChecker.Decimal.Digit

/-!
# Numerals

A decimal numeral as it is written: a sign, digits before and behind the point, and an
exponent.
-/

namespace LuaChecker.Decimal

structure Numeral where
  negative : Bool
  whole : List Digit
  /-- The digits behind the point. There is no point if there are none. -/
  fraction : List Digit
  /-- The power of ten, if one is written. -/
  exponent : Option Int
  deriving DecidableEq, Repr

namespace Numeral

def ofNat (n : Nat) : Numeral :=
  ⟨false, digits n, [], none⟩

/-- The point and the digits behind it. -/
def renderFraction : List Digit → List Char
  | [] => []
  | ds => '.' :: ds.map Digit.toChar

/-- The exponent, always with a sign. -/
def renderExponent : Option Int → List Char
  | none => []
  | some e => 'e' :: (if e < 0 then '-' else '+') :: (digits e.natAbs).map Digit.toChar

def render (n : Numeral) : List Char :=
  (if n.negative then ['-'] else []) ++ n.whole.map Digit.toChar ++
    renderFraction n.fraction ++ renderExponent n.exponent

end Numeral

end LuaChecker.Decimal

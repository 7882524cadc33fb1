import LuaChecker.Decimal.Numeral
import LuaChecker.Decimal.Shortest

/-!
# Styles of writing a double

A style says which doubles are written with all their places and which with an exponent,
whether a whole number keeps a point, and which of two equally near decimals is taken.
-/

namespace LuaChecker.Decimal

structure Style where
  /-- Whether a double whose first digit stands for this power of ten is written with all
  its places. -/
  positional : Int → Bool
  /-- Whether `.0` is written behind a whole number with all its places. -/
  keepsPoint : Bool
  tie : Tie

/-- The digits before the point, where `point` digits of `ds` stand before it. -/
def wholePart (ds : List Digit) (point : Int) : List Digit :=
  if point ≤ 0 then [Digit.zero]
  else ds.take point.toNat ++ List.replicate (point.toNat - ds.length) Digit.zero

/-- The digits behind the point, where `point` digits of `ds` stand before it. -/
def fractionPart (ds : List Digit) (point : Int) : List Digit :=
  List.replicate (-point).toNat Digit.zero ++ ds.drop point.toNat

namespace Style

/-- The digits behind the point, with the zero that a style may ask for. -/
def padded (style : Style) (fraction : List Digit) : List Digit :=
  if fraction.isEmpty && style.keepsPoint then [Digit.zero] else fraction

/-- The numeral of a finite double. -/
def numeral (style : Style) (negative : Bool) (magnitude : Dyadic) : Numeral :=
  if magnitude.mantissa = 0 then ⟨negative, [Digit.zero], style.padded [], none⟩
  else
    let decimal := magnitude.shortest style.tie
    let ds := digits decimal.coefficient
    let lead := decimal.exponent + ds.length - 1
    if style.positional lead then
      ⟨negative, wholePart ds (lead + 1), style.padded (fractionPart ds (lead + 1)), none⟩
    else ⟨negative, ds.take 1, ds.drop 1, some lead⟩

/-- The numeral of a double, if it is finite. -/
def numeral? (style : Style) (x : Float) : Option Numeral :=
  match unpack x with
  | .finite negative magnitude => some (style.numeral negative magnitude)
  | _ => none

def render (style : Style) (x : Float) : String :=
  match unpack x with
  | .nan => "NaN"
  | .infinite negative => if negative then "-inf" else "inf"
  | .finite negative magnitude => String.ofList (style.numeral negative magnitude).render

end Style

end LuaChecker.Decimal

import LuaChecker.Decimal.Digit

/-!
# Reading a double

The double nearest to a decimal numeral. A numeral has digits before or behind a point, or
on both sides of it, and perhaps an exponent; infinity and not-a-number have names.
-/

namespace LuaChecker.Decimal

def infinity : Float := 1.0 / 0.0

/-- The double nearest to `coefficient * 10 ^ exponent`. Exponents that are out of all range
are settled first, so that no power of ten is large. -/
def nearest (coefficient : Nat) (exponent : Int) : Float :=
  let lead := exponent + (digits coefficient).length
  if coefficient = 0 then 0.0
  else if 310 < lead then infinity
  else if lead < -330 then 0.0
  else Float.ofScientific coefficient (exponent < 0) exponent.natAbs

def exponent? (text : List Char) : Option Int :=
  let (negative, text) :=
    match text with
    | '-' :: rest => (true, rest)
    | '+' :: rest => (false, rest)
    | _ => (false, text)
  let ds := leadingDigits text
  if ds.isEmpty || !(afterDigits text).isEmpty then none
  else some (if negative then -(ofDigits ds : Int) else ofDigits ds)

/-- The double of a numeral without a sign. -/
def magnitude? (text : List Char) : Option Float :=
  let whole := leadingDigits text
  let (fraction, rest) :=
    match afterDigits text with
    | '.' :: rest => (leadingDigits rest, afterDigits rest)
    | rest => ([], rest)
  if whole.isEmpty && fraction.isEmpty then none
  else
    let exponent :=
      match rest with
      | [] => some 0
      | c :: rest => if c = 'e' || c = 'E' then exponent? rest else none
    exponent.map fun e => nearest (ofDigits (whole ++ fraction)) (e - fraction.length)

/-- The double with this name, in letters of either case. -/
def named? (text : List Char) : Option Float :=
  match String.ofList (text.map Char.toLower) with
  | "inf" => some infinity
  | "infinity" => some infinity
  | "nan" => some (0.0 / 0.0)
  | _ => none

/-- The double that a text stands for, without a sign. -/
def unsigned? (text : List Char) : Option Float :=
  (magnitude? text).or (named? text)

def readFloat? (text : List Char) : Option Float :=
  match text with
  | '-' :: rest => (unsigned? rest).map fun x => -x
  | '+' :: rest => unsigned? rest
  | _ => unsigned? text

end LuaChecker.Decimal

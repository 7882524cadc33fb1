import LuaChecker.Json.Basic

/-!
# Reading JSON

`read?` reads a text that is one JSON value with nothing but white space around it. A string
may hold any escape; whether its surrogates are paired is settled only afterwards, so that
such a string is still read as a string, though it stands for no text.
-/

namespace LuaChecker.Json

/-- Whether JSON allows the character between values. -/
def isSpace (c : Char) : Bool :=
  c = ' ' || c = '\t' || c = '\n' || c = '\r'

def skipSpace (text : List Char) : List Char :=
  text.dropWhile isSpace

/-- The text behind the given characters, if it starts with them. -/
def skip? (start text : List Char) : Option (List Char) :=
  if start.isPrefixOf text then some (text.drop start.length) else none

/-! ## Strings -/

/-- A part of a string literal. -/
inductive Part
  | plain (c : Char)
  /-- An escape by number, of a character or of half a surrogate pair. -/
  | unit (code : Nat)
  deriving DecidableEq, Repr

def hexValue? (c : Char) : Option Nat :=
  if c.isDigit then some (c.toNat - 48)
  else if 'a' ≤ c && c ≤ 'f' then some (c.toNat - 87)
  else if 'A' ≤ c && c ≤ 'F' then some (c.toNat - 55)
  else none

def hexCode? (a b c d : Char) : Option Nat := do
  let a ← hexValue? a
  let b ← hexValue? b
  let c ← hexValue? c
  let d ← hexValue? d
  return ((a * 16 + b) * 16 + c) * 16 + d

/-- The character that a backslash and a letter stand for. -/
def escaped? (c : Char) : Option Char :=
  match c with
  | '"' => some '"'
  | '\\' => some '\\'
  | '/' => some '/'
  | 'b' => some '\x08'
  | 'f' => some '\x0c'
  | 'n' => some '\n'
  | 'r' => some '\r'
  | 't' => some '\t'
  | _ => none

/-- The parts of a string literal up to its closing quote, and the text behind it. `acc` has
the parts so far, the last one first. -/
def partsOnto? (acc : List Part) : List Char → Option (List Part × List Char)
  | [] => none
  | '"' :: rest => some (acc.reverse, rest)
  | '\\' :: 'u' :: a :: b :: c :: d :: rest =>
    match hexCode? a b c d with
    | some code => partsOnto? (.unit code :: acc) rest
    | none => none
  | '\\' :: c :: rest =>
    match escaped? c with
    | some c' => partsOnto? (.plain c' :: acc) rest
    | none => none
  | c :: rest => if c = '\\' || c.toNat < 32 then none else partsOnto? (.plain c :: acc) rest

def isHigh (code : Nat) : Bool := 0xD800 ≤ code && code < 0xDC00

def isLow (code : Nat) : Bool := 0xDC00 ≤ code && code < 0xE000

/-- The characters of a string literal, unless half a surrogate pair stands alone. -/
def joinParts : List Part → Option (List Char)
  | [] => some []
  | .plain c :: rest => (joinParts rest).map (c :: ·)
  | .unit high :: .unit low :: rest =>
    if isHigh high && isLow low then
      (joinParts rest).map
        (Char.ofNat (0x10000 + (high - 0xD800) * 0x400 + (low - 0xDC00)) :: ·)
    else if isHigh high || isLow high then none
    else (joinParts (.unit low :: rest)).map (Char.ofNat high :: ·)
  | .unit code :: rest =>
    if isHigh code || isLow code then none
    else (joinParts rest).map (Char.ofNat code :: ·)

/-- A string literal behind its opening quote, and the text behind it. -/
def text? (text : List Char) : Option (Text × List Char) :=
  (partsOnto? [] text).map fun r => ((joinParts r.1).map String.ofList, r.2)

/-! ## Numbers -/

/-- Digits, at least one, and the text behind them. -/
def digits? (text : List Char) : Option (List Decimal.Digit × List Char) :=
  let ds := Decimal.leadingDigits text
  if ds.isEmpty then none else some (ds, Decimal.afterDigits text)

/-- Digits without a needless zero at their start, and the text behind them. -/
def whole? (text : List Char) : Option (List Decimal.Digit × List Char) :=
  match text with
  | '0' :: rest => some ([Decimal.Digit.zero], rest)
  | _ => digits? text

/-- The digits behind a point, if there is one, and the text behind them. -/
def fraction? (text : List Char) : Option (List Decimal.Digit × List Char) :=
  match text with
  | '.' :: rest => digits? rest
  | _ => some ([], text)

/-- An exponent behind its mark, and the text behind it. -/
def signedExponent? (text : List Char) : Option (Int × List Char) :=
  match text with
  | '-' :: rest => (digits? rest).map fun r => (-(Decimal.ofDigits r.1 : Int), r.2)
  | '+' :: rest => (digits? rest).map fun r => (Decimal.ofDigits r.1, r.2)
  | _ => (digits? text).map fun r => (Decimal.ofDigits r.1, r.2)

/-- An exponent, if there is one, and the text behind it. -/
def exponent? (text : List Char) : Option (Option Int × List Char) :=
  match text with
  | 'e' :: rest => (signedExponent? rest).map fun r => (some r.1, r.2)
  | 'E' :: rest => (signedExponent? rest).map fun r => (some r.1, r.2)
  | _ => some (none, text)

/-- A numeral without its sign, and the text behind it. -/
def unsigned? (negative : Bool) (text : List Char) : Option (Decimal.Numeral × List Char) := do
  let (whole, text) ← whole? text
  let (fraction, text) ← fraction? text
  let (exponent, text) ← exponent? text
  return (⟨negative, whole, fraction, exponent⟩, text)

def numeral? (text : List Char) : Option (Decimal.Numeral × List Char) :=
  match text with
  | '-' :: rest => unsigned? true rest
  | _ => unsigned? false text

/-! ## Values -/

mutual

/-- A value, perhaps behind white space, and the text behind it. The number bounds the
steps. -/
def value? : Nat → List Char → Option (Json × List Char)
  | 0, _ => none
  | steps + 1, text =>
    match skipSpace text with
    | 'n' :: rest => (skip? ['u', 'l', 'l'] rest).map fun rest => (null, rest)
    | 't' :: rest => (skip? ['r', 'u', 'e'] rest).map fun rest => (bool true, rest)
    | 'f' :: rest => (skip? ['a', 'l', 's', 'e'] rest).map fun rest => (bool false, rest)
    | '"' :: rest => (text? rest).map fun r => (string r.1, r.2)
    | '[' :: rest =>
      match skipSpace rest with
      | ']' :: rest => some (array [], rest)
      | _ => (items? steps [] rest).map fun r => (array r.1, r.2)
    | '\x7b' :: rest =>
      match skipSpace rest with
      | '\x7d' :: rest => some (object [], rest)
      | _ => (members? steps [] rest).map fun r => (object r.1, r.2)
    | text => (numeral? text).map fun r => (number r.1, r.2)

/-- The items of an array up to its closing bracket, and the text behind it. `acc` has the
items so far, the last one first. -/
def items? : Nat → List Json → List Char → Option (List Json × List Char)
  | 0, _, _ => none
  | steps + 1, acc, text =>
    match value? steps text with
    | none => none
    | some (item, text) =>
      match skipSpace text with
      | ',' :: rest => items? steps (item :: acc) rest
      | ']' :: rest => some ((item :: acc).reverse, rest)
      | _ => none

/-- The members of an object up to its closing brace, and the text behind it. `acc` has the
members so far, the last one first. -/
def members? : Nat → List (Text × Json) → List Char → Option (List (Text × Json) × List Char)
  | 0, _, _ => none
  | steps + 1, acc, text =>
    match (skip? ['"'] (skipSpace text)).bind text? with
    | none => none
    | some (key, text) =>
      match (skip? [':'] (skipSpace text)).bind (value? steps) with
      | none => none
      | some (value, text) =>
        match skipSpace text with
        | ',' :: rest => members? steps ((key, value) :: acc) rest
        | '\x7d' :: rest => some (((key, value) :: acc).reverse, rest)
        | _ => none

end

/-- The value that a whole text stands for. Every character takes at most two steps. -/
def read? (text : String) : Option Json :=
  match value? (2 * text.toList.length + 2) text.toList with
  | some (j, rest) => if (skipSpace rest).isEmpty then some j else none
  | none => none

end LuaChecker.Json

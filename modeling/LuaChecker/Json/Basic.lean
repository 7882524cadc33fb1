import LuaChecker.Decimal.Numeral

/-!
# JSON values

A JSON value as it is written: numbers keep their numerals, and the members of an object
keep their order, repeated keys included.
-/

namespace LuaChecker

/-- What a string literal stands for. It stands for no text at all if it has an escape of
one half of a surrogate pair without the other half. -/
abbrev Json.Text := Option String

inductive Json
  | null
  | bool (b : Bool)
  | number (n : Decimal.Numeral)
  | string (text : Json.Text)
  | array (items : List Json)
  | object (members : List (Json.Text × Json))

namespace Json

def ofString (s : String) : Json := string (some s)

def ofNat (n : Nat) : Json := number (.ofNat n)

/-- An object whose keys are texts. -/
def ofMembers (members : List (String × Json)) : Json :=
  object (members.map fun m => (some m.1, m.2))

end Json

end LuaChecker

import LuaChecker.Json.Basic

/-!
# Writing JSON

Every item of an array and every member of an object has a line of its own, indented by two
spaces a level. An array without items and an object without members have no inner lines.
In a string, quotes, backslashes and control characters are escaped, nothing else.
-/

namespace LuaChecker.Json

/-! ## Strings -/

/-- The hexadecimal digit of a number below 16. -/
def hexDigit (n : Nat) : Char :=
  if n < 10 then Char.ofNat (48 + n) else Char.ofNat (87 + n)

/-- A character as it is written in a string. -/
def escape (c : Char) : List Char :=
  if c = '"' then ['\\', '"']
  else if c = '\\' then ['\\', '\\']
  else if c = '\x08' then ['\\', 'b']
  else if c = '\x0c' then ['\\', 'f']
  else if c = '\n' then ['\\', 'n']
  else if c = '\r' then ['\\', 'r']
  else if c = '\t' then ['\\', 't']
  else if c.toNat < 32 then
    ['\\', 'u', '0', '0', hexDigit (c.toNat / 16), hexDigit (c.toNat % 16)]
  else [c]

/-- A string as it is written; what stands for no text is written as half a surrogate
pair. -/
def renderText : Text → List Char
  | some s => '"' :: (s.toList.flatMap escape ++ ['"'])
  | none => ['"', '\\', 'u', 'd', '8', '0', '0', '"']

/-! ## Values -/

def newline (indent : Nat) : List Char :=
  '\n' :: List.replicate (2 * indent) ' '

/-- Lines with an opening and a closing sign around them. -/
def enclose (opening closing : Char) (indent : Nat) : List (List Char) → List Char
  | [] => [opening, closing]
  | lines =>
    opening :: (newline (indent + 1) ++ List.intercalate (',' :: newline (indent + 1)) lines ++
      newline indent ++ [closing])

mutual

/-- The text of a value that starts on a line with this indentation. -/
def render (indent : Nat) : Json → List Char
  | null => ['n', 'u', 'l', 'l']
  | bool true => ['t', 'r', 'u', 'e']
  | bool false => ['f', 'a', 'l', 's', 'e']
  | number n => n.render
  | string text => renderText text
  | array items => enclose '[' ']' indent (renderItems (indent + 1) items)
  | object members => enclose '\x7b' '\x7d' indent (renderMembers (indent + 1) members)

def renderItems (indent : Nat) : List Json → List (List Char)
  | [] => []
  | item :: items => render indent item :: renderItems indent items

def renderMembers (indent : Nat) : List (Text × Json) → List (List Char)
  | [] => []
  | (key, value) :: members =>
    (renderText key ++ ':' :: ' ' :: render indent value) :: renderMembers indent members

end

def pretty (j : Json) : String :=
  String.ofList (j.render 0)

end LuaChecker.Json

/-!
# Tokens

The words and signs of a source text: their kinds, the reserved words, and where a token
stands. Positions and widths count characters.
-/

namespace LuaChecker

/-- What sort of token a text is. -/
inductive Kind
  | name
  | string
  | number
  | keyword
  | symbol
  /-- Something that starts no token. The lexer drops it and never yields this kind. -/
  | invalid
  deriving DecidableEq, Repr

def Kind.label : Kind → String
  | .name => "name"
  | .string => "string"
  | .number => "number"
  | .keyword => "keyword"
  | .symbol => "symbol"
  | .invalid => "invalid"

/-- The reserved words of Lua 5.1, in alphabetical order. -/
def reservedWords : List String :=
  ["and", "break", "do", "else", "elseif", "end", "false", "for", "function", "if", "in",
   "local", "nil", "not", "or", "repeat", "return", "then", "true", "until", "while"]

def isReserved (word : String) : Bool :=
  reservedWords.contains word

structure Token where
  line : Nat
  /-- The number of characters before the token. -/
  position : Nat
  /-- The number of source characters that the token covers. -/
  width : Nat
  kind : Kind
  /-- The text of the token, which differs from the characters covered where these had
  to be repaired. -/
  text : String
  deriving DecidableEq, Repr

end LuaChecker

/-!
# What can be wrong with a program

The findings of the parser, each with its message.
-/

namespace LuaChecker.Grammar

/-- Where a token has to stand that was not found. -/
inductive Place
  | plain
  /-- After the condition of a statement that starts with this word. -/
  | after (opener : String)
  | forLoop
  /-- In the header of the function with this name or label. -/
  | header (label : String)
  deriving DecidableEq, Repr

def Place.detail : Place → String
  | .plain => "expected"
  | .after opener => "not found after '" ++ opener ++ "'"
  | .forLoop => "expected in 'for' loop"
  | .header label => "expected in function '" ++ label ++ "'"

/-- What should have stood where something else was found. -/
inductive Need
  /-- A list of names without `...`. -/
  | closedNames
  | variable
  | suffix
  | operand
  | arguments
  | name
  deriving DecidableEq, Repr

/-- What is said about a need, where `found` is what was found. -/
def Need.detail (found : String) : Need → String
  | .closedNames => "'...' encountered in namelist"
  | .variable => "Variable expected"
  | .suffix => "'[', '.', '(', '\x7b', ':' or a string expected"
  | .operand => "Name or '(' expected"
  | .arguments => "'(', '\x7b' or a string expected"
  | .name => "'" ++ found ++ "' is not a valid name"

/-- A finding about a program. -/
inductive Cause
  /-- A token that has to be there is not. -/
  | missing (found wanted : String) (place : Place)
  | unexpected (found : String) (need : Need)
  /-- A name is read as another word. -/
  | typo (found meant : String)
  /-- A statement follows the last one of its block. -/
  | unreachable
  | notClosed
  | tooDeep
  | redefined (name : String)
  deriving DecidableEq, Repr

def Cause.message : Cause → String
  | .missing found wanted place =>
    "'" ++ found ++ "' not expected. '" ++ wanted ++ "' " ++ place.detail
  | .unexpected found need => "'" ++ found ++ "' not expected. " ++ need.detail found
  | .typo found meant => "Typo in '" ++ found ++ "' - should probably be '" ++ meant ++ "'"
  | .unreachable => "Scope not closed after 'break' or 'return'"
  | .notClosed => "Scope not closed"
  | .tooDeep => "Chunk has too many syntax levels"
  | .redefined name => "Function '" ++ name ++ "' defined multiple times"

end LuaChecker.Grammar

import LuaChecker.Text.Search

/-!
# Paths

A path is a text of names with slashes between them.
-/

namespace LuaChecker.CommandLine

/-- A place below a directory, by the names on the way to it. -/
abbrev Names := List String

def namesOf (path : String) : Names :=
  (Text.split '/' path.toList).map String.ofList

def pathOf (names : Names) : String :=
  "/".intercalate names

def isAbsolute (path : String) : Bool :=
  path.toList.head? = some '/'

/-- Whether a path or a name has the character that none can have. -/
def hasNull (path : String) : Bool :=
  path.toList.contains (Char.ofNat 0)

def joinPath (directory name : String) : String :=
  if directory = "" then name
  else if directory.toList.getLast? = some '/' then directory ++ name
  else directory ++ "/" ++ name

end LuaChecker.CommandLine

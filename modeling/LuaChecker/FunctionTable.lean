/-!
# Function tables

A function table maps the names of the declared functions to their parameters. Its entries
are kept in the order of the names, by code point. A declaration starts an entry anew.
-/

namespace LuaChecker

/-- The declared functions with their parameters, in the order of their names. -/
structure FunctionTable where
  entries : List (String × List String)
  deriving DecidableEq, Repr

namespace FunctionTable

/-- What stands for the further arguments in a list of parameters. -/
def variadic : String := "..."

def empty : FunctionTable := ⟨[]⟩

def size (t : FunctionTable) : Nat := t.entries.length

def names (t : FunctionTable) : List String := t.entries.map (·.1)

def params? (t : FunctionTable) (name : String) : Option (List String) :=
  t.entries.lookup name

def contains (t : FunctionTable) (name : String) : Bool :=
  t.entries.any (·.1 = name)

/-- Puts an entry in its place in the order of the names; an entry of the same name gives
way. -/
def put (name : String) (params : List String) :
    List (String × List String) → List (String × List String)
  | [] => [(name, params)]
  | e :: es =>
    if name < e.1 then (name, params) :: e :: es
    else if name = e.1 then (name, params) :: es
    else e :: put name params es

/-- Declares a function without parameters. An earlier entry of that name is forgotten. -/
def declare (t : FunctionTable) (name : String) : FunctionTable :=
  ⟨put name [] t.entries⟩

/-- Adds parameters to a declared function; nothing happens if it is not declared. -/
def addParams (t : FunctionTable) (name : String) (params : List String) : FunctionTable :=
  ⟨t.entries.map fun e => if e.1 = name then (e.1, e.2 ++ params) else e⟩

/-- Notes that a declared function takes further arguments. -/
def markVariadic (t : FunctionTable) (name : String) : FunctionTable :=
  t.addParams name [variadic]

end FunctionTable

end LuaChecker

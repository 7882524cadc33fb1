import LuaChecker.Diagnostic
import LuaChecker.FunctionTable
import LuaChecker.Json.Pretty

/-!
# Reports

The outcome of a check. A report in the form of text shows the diagnostics or, if there are
none, the declared functions; a report in the form of JSON has both.
-/

namespace LuaChecker

/-- The outcome of a check: the diagnostics in the order in which they were found, and the
declared functions. -/
structure Report where
  diagnostics : List Diagnostic
  functions : FunctionTable
  deriving DecidableEq, Repr

namespace Report

def hasErrors (r : Report) : Bool :=
  !r.diagnostics.isEmpty

/-- Lines of text, each with its line end. -/
def ofLines (lines : List String) : String :=
  String.join (lines.map (· ++ "\n"))

/-- A declared function with its parameters, as one line of text. -/
def functionLine (entry : String × List String) : String :=
  entry.1 ++ " [" ++ ", ".intercalate (entry.2.map fun p => "'" ++ p ++ "'") ++ "]"

def lines (r : Report) : List String :=
  if r.hasErrors then "Errors found" :: r.diagnostics.map Diagnostic.render
  else "No errors found" :: r.functions.entries.map functionLine

def toText (r : Report) : String :=
  ofLines r.lines

/-- A diagnostic as a JSON value. The end of the input is written as `null`. -/
def diagnosticJson (d : Diagnostic) : Json :=
  .ofMembers
    [("line", match d.line with
        | some line => .ofNat line
        | none => .null),
      ("message", .ofString d.message)]

def toJson (r : Report) : Json :=
  .ofMembers
    [("errors", .array (r.diagnostics.map diagnosticJson)),
      ("functions",
        .ofMembers (r.functions.entries.map fun e => (e.1, .array (e.2.map .ofString))))]

/-- A report in the form of JSON, without a line end behind it. -/
def toJsonText (r : Report) : String :=
  r.toJson.pretty

end Report

end LuaChecker

/-!
# Diagnostics

A diagnostic is a message about a line of the source, or about its end.
-/

namespace LuaChecker

structure Diagnostic where
  /-- The line that the message is about; `none` stands for the end of the input. -/
  line : Option Nat
  message : String
  deriving DecidableEq, Repr

/-- The place of a diagnostic as it is written in front of its message. -/
def Diagnostic.place (d : Diagnostic) : String :=
  match d.line with
  | some line => toString line
  | none => "EOF"

/-- A diagnostic as one line of text, without the line end. -/
def Diagnostic.render (d : Diagnostic) : String :=
  d.place ++ ": " ++ d.message ++ "."

end LuaChecker

import LuaChecker.Diagnostic
import LuaChecker.FunctionTable
import LuaChecker.Grammar.Cause

/-!
# What a parse records

While it goes through the tokens, a parse records events: its findings, and the function
headers that it meets. A ledger is what comes of them. It names the functions that have no
name, keeps the function table, and notices when a function is declared again. The parse
itself never looks at the ledger.

* `ofEvents_append`: a ledger is kept event by event;
* `record_finding`: a finding leaves everything but the diagnostics as it is.
-/

namespace LuaChecker.Grammar

/-- Something that a parse records. -/
inductive Event
  | finding (line : Option Nat) (cause : Cause)
  /-- A function header, with the name of the function (empty if it has none) and the line
  of what follows the name. -/
  | header (line : Option Nat) (name : String)
  /-- A token of the current header is not there. -/
  | headerLacks (line : Option Nat) (found wanted : String)
  /-- The parameters of the current header, and whether there may be more arguments. -/
  | parameters (names : List String) (variadic : Bool)
  deriving DecidableEq, Repr

/-- What comes of the events of a parse. -/
structure Ledger where
  /-- The diagnostics, the last one first. -/
  findings : List Diagnostic
  functions : FunctionTable
  /-- The number of functions without a name so far. -/
  anonymous : Nat
  /-- The name or label of the last header. -/
  current : String
  deriving DecidableEq, Repr

namespace Ledger

/-- The ledger in front of all events. -/
def initial : Ledger := ⟨[], .empty, 0, ""⟩

def lineText : Option Nat → String
  | some line => toString line
  | none => "EOF"

def anonymousLabel (number : Nat) (line : Option Nat) : String :=
  "Unnamed function " ++ toString number ++ " on line " ++ lineText line

def report (l : Ledger) (line : Option Nat) (cause : Cause) : Ledger :=
  { l with findings := ⟨line, cause.message⟩ :: l.findings }

def declare (l : Ledger) (line : Option Nat) (label : String) : Ledger :=
  let l' := if l.functions.contains label then l.report line (.redefined label) else l
  { l' with functions := l.functions.declare label, current := label }

def record (l : Ledger) : Event → Ledger
  | .finding line cause => l.report line cause
  | .header line name =>
    if name.isEmpty then
      { l with anonymous := l.anonymous + 1 }.declare line (anonymousLabel l.anonymous line)
    else l.declare line name
  | .headerLacks line found wanted => l.report line (.missing found wanted (.header l.current))
  | .parameters names variadic =>
    let named := l.functions.addParams l.current names
    { l with functions := if variadic then named.markVariadic l.current else named }

def ofEvents (events : List Event) : Ledger :=
  events.foldl record initial

def diagnostics (l : Ledger) : List Diagnostic := l.findings.reverse

theorem ofEvents_append (es fs : List Event) :
    ofEvents (es ++ fs) = fs.foldl record (ofEvents es) := by
  simp [ofEvents]

@[simp] theorem record_finding (l : Ledger) (line : Option Nat) (cause : Cause) :
    l.record (.finding line cause) =
      { l with findings := ⟨line, cause.message⟩ :: l.findings } := rfl

end Ledger

end LuaChecker.Grammar

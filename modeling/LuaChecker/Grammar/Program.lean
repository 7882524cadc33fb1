import LuaChecker.Grammar.Statement

/-!
# Programs

A program is a block without a closing word. Blocks and expressions may be nested up to a
limit, the program itself included; beyond it the parse halts.
-/

namespace LuaChecker.Grammar

open Parse

/-- What is found past the last nesting level. -/
def tooDeep {α : Type} : Parse α := do
  report .tooDeep
  halt .tooDeep

/-- The parses that may go through this many nesting levels. -/
def nested : Nat → Nested
  | 0 => ⟨tooDeep, fun _ => tooDeep⟩
  | levels + 1 =>
    let inner := nested levels
    ⟨operandChain inner, block inner⟩

/-- The number of nesting levels that a program may have. -/
def maxLevels : Nat := 200

def program : Parse (Option Closer) :=
  (nested maxLevels).chunk []

/-- What a list of tokens leads to, read as a program. -/
def parse (speller : Speller) (tokens : List Token) : Ledger :=
  .ofEvents (refusingEllipsis program speller (.ofList tokens)).events

end LuaChecker.Grammar

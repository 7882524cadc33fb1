import LuaChecker.Grammar.Program
import LuaChecker.Lexing
import LuaChecker.Report
import LuaChecker.Settings.Basic

/-!
# Checking a source text

A check splits a source text into tokens and reads them as a program. Its report holds what
was wrong with the text, then what was wrong with the program.
-/

namespace LuaChecker

def checkTokens (threshold : Float) (tokens : List Token) : Report :=
  let ledger := Grammar.parse (.ofThreshold threshold) tokens
  ⟨ledger.diagnostics, ledger.functions⟩

def check (settings : Settings) (source : String) : Report :=
  let lexed := lex settings.comments source.toList
  let parsed := checkTokens settings.threshold lexed.tokens
  ⟨lexed.diagnostics ++ parsed.diagnostics, parsed.functions⟩

end LuaChecker

import LuaChecker.CommandLine.FileTree
import LuaChecker.CommandLine.Run
import LuaChecker.Main
import LuaChecker.Proofs.Syntax.Declarations
import LuaChecker.Proofs.Lexing.Account
import LuaChecker.Proofs.Lexing.Coverage
import LuaChecker.Proofs.Parsing.Built
import LuaChecker.Proofs.Parsing.Ending
import LuaChecker.Proofs.Lexing.Faithful
import LuaChecker.Proofs.Syntax.Boundary
import LuaChecker.Proofs.Syntax.Misspelling
import LuaChecker.Proofs.Lexing.Contract
import LuaChecker.Proofs.Lexing.Lines
import LuaChecker.Proofs.Lexing.Lookahead
import LuaChecker.Proofs.Lexing.Joining
import LuaChecker.Proofs.Lexing.Printing
import LuaChecker.Proofs.Parsing.Threshold
import LuaChecker.Proofs.Parsing.Order
import LuaChecker.Proofs.Parsing.Layout
import LuaChecker.Proofs.Syntax.Truncation
import LuaChecker.Proofs.Syntax.Separation
import LuaChecker.Proofs.Parsing.Accounting
import LuaChecker.Proofs.CommandLine.Initializing
import LuaChecker.Proofs.Lexing.Blanking
import LuaChecker.Proofs.Lexing.Escapes
import LuaChecker.Proofs.Similarity.Blocks
import LuaChecker.Proofs.Parsing.Silence
import LuaChecker.Proofs.FunctionTable.History
import LuaChecker.Proofs.Report
import LuaChecker.Proofs.Report.Json
import LuaChecker.Proofs.Cursor

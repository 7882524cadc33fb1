import LuaChecker.Grammar.Expression

/-!
# Statements and blocks

A block is read statement by statement up to a word that closes it. It may also be closed
by a misspelling of such a word; and nothing but the end of the block may follow `return`
or `break`.
-/

namespace LuaChecker.Grammar

open Parse

variable (inner : Nested)

/-! ## Statements that start with a word -/

def untilEnd : Parse Unit :=
  discard (inner.chunk [.endWord])

/-- A further branch of an `if` statement, if the last one was closed by `elseif`. -/
def nextBranch (closed : Option Closer) : Parse (Turn (Option Closer) (Option Closer)) := do
  if closed = some .elseifWord then
    inner.exp
    demand "then" (.after "elseif")
    let next ← inner.chunk Closer.branch
    return .again next
  else
    return .done closed

def ifStatement : Parse Unit := do
  inner.exp
  demand "then" (.after "if")
  let first ← inner.chunk Closer.branch
  let last ← loop (nextBranch inner) first
  if last = some .elseWord then
    untilEnd inner

/-- The bounds and perhaps the step of a numeric `for` statement, after the equals sign. -/
def numericRange : Parse Unit := do
  inner.exp
  demand "," .forLoop
  inner.exp
  if ← accept "," then
    inner.exp

/-- The further names and the expressions of a generic `for` statement. -/
def genericRange : Parse Unit := do
  many (afterComma (discard name))
  demand "in" .forLoop
  expList inner

def forStatement : Parse Unit := do
  discard name
  if ← accept "=" then
    numericRange inner
  else
    genericRange inner
  demand "do" .forLoop
  untilEnd inner

def localNames : Parse Unit :=
  refusingEllipsis nameList

def localValues : Parse Unit := do
  if ← accept "=" then
    expList inner

def localStatement : Parse Unit := do
  if ← accept "function" then
    let functionName ← name
    functionBody inner functionName
  else
    localNames
    localValues inner

/-- A statement, after the word that starts it. -/
def opened : Opener → Parse Unit
  | .doWord => untilEnd inner
  | .whileWord => do
    inner.exp
    demand "do" (.after "while")
    untilEnd inner
  | .repeatWord => do
    discard (inner.chunk [.untilWord])
    inner.exp
  | .ifWord => ifStatement inner
  | .forWord => forStatement inner
  | .functionWord => do
    let path ← functionName
    functionBody inner path
  | .localWord => localStatement inner

/-! ## Assignments and calls -/

def target : Parse Unit := do
  match ← lead inner (.statement []) with
  | .variable => pure ()
  | _ => unexpected .variable

def assignment : Parse Unit := do
  many (afterComma (target inner))
  if ← accept "=" then
    expList inner
  else
    lack "=" .plain

def acceptOpener : Parse (Option Opener) := move fun c =>
  match c.text?.bind Opener.ofText? with
  | some word => (some word, c.advance)
  | none => (none, c)

/-- A statement in a block with these closing words. -/
def statement (closers : List Closer) : Parse Unit := do
  match ← acceptOpener with
  | some word => opened inner word
  | none =>
    match ← lead inner (.statement closers) with
    | .variable => assignment inner
    | .other => pure ()
    | .opens word =>
      advance
      opened inner word

/-! ## Blocks -/

/-- A turn through a block. The state is whether the last statement of the block is read;
the value is the word that closed the block, if one did. -/
abbrev BlockTurn : Type := Turn Bool (Option Closer)

def acceptCloser (closers : List Closer) : Parse (Option Closer) := move fun c =>
  match closers.find? fun word => c.sees word.text with
  | some word => (some word, c.advance)
  | none => (none, c)

/-- A block at the end of the input. Only the outermost one, which has no closing words, may
end there. -/
def endOfInput (closers : List Closer) : Parse BlockTurn := do
  if closers.isEmpty then
    return .done none
  else
    record fun _ => .finding none .notClosed
    halt .endOfInput

/-- Something other than a closing word after the last statement of a block. The block is
closed all the same; a misspelt closing word is read. -/
def afterLast (closers : List Closer) : Parse BlockTurn := do
  report .unreachable
  match ← closest Closer.text closers with
  | some word =>
    advance
    return .done (some word)
  | none => return .done none

/-- Whether the values of a `return` statement come next. -/
def seesValues (closers : List Closer) (c : Cursor) : Bool :=
  !c.atEnd && !c.seesAny (closers.map Closer.text) && !c.sees ";"

/-- The values of a `return` statement, if it has some. -/
def returnValues (closers : List Closer) : Parse Unit := do
  if ← look (seesValues closers) then
    expList inner

/-- One statement of a block, with the semicolon that may follow it. A misspelt closing word
in place of the statement closes the block. -/
def nextStatement (closers : List Closer) : Parse BlockTurn := do
  if ← accept "break" then
    discard (accept ";")
    return .again true
  else if ← accept "return" then
    returnValues inner closers
    discard (accept ";")
    return .again true
  else
    match ← catching Halt.closer? (statement inner closers) with
    | .error word => return .done (some word)
    | .ok _ =>
      discard (accept ";")
      return .again false

/-- The next turn through a block, whose last statement is read if `ended` says so. -/
def blockTurn (closers : List Closer) (ended : Bool) : Parse BlockTurn := do
  if ← look (·.atEnd) then
    endOfInput closers
  else
    match ← acceptCloser closers with
    | some word => return .done (some word)
    | none => if ended then afterLast closers else nextStatement inner closers

/-- A block up to one of the closing words. -/
def block (closers : List Closer) : Parse (Option Closer) :=
  loop (blockTurn inner closers) false

end LuaChecker.Grammar

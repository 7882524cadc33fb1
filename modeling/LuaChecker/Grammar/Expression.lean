import LuaChecker.Grammar.Parse

/-!
# Expressions

Names, variables, calls, tables, functions and the expressions made of them. Expressions
and the blocks of functions contain one another; the parses here are given those that read
an expression or a block one nesting level further in (`Nested`).

A token is recognised by its text; only names, numbers and strings are recognised by their
kind. One token beyond the current one decides where the text alone does not.
-/

namespace LuaChecker.Grammar

open Parse

structure Nested where
  exp : Parse Unit
  /-- Statements up to one of the closing words, which is read too. The value is the word
  that closed them, if one did. -/
  chunk : List Closer → Parse (Option Closer)

/-! ## Names -/

/-- A name. Another token in its place is recorded and stays; its text is the name. -/
def name : Parse String := do
  let text ← look fun c => c.text?.getD ""
  if ← acceptKind .name then
    return text
  else
    unexpected .name
    return text

/-- One more name of a list, after a comma. The names so far come the last one first. -/
def nextName (names : List String) : Parse (Turn (List String) (List String)) := do
  if ← accept "," then
    if ← accept "..." then
      halt (.ellipsis names.reverse)
    else
      let next ← name
      return .again (next :: names)
  else
    return .done names.reverse

/-- Names with commas between them; `...` behind a comma halts. -/
def nameList : Parse (List String) := do
  let first ← name
  loop nextName [first]

/-- One more part of a function name, after a point. -/
def nextNamePart (path : String) : Parse (Turn String String) := do
  if ← accept "." then
    let part ← name
    return .again (path ++ "." ++ part)
  else
    return .done path

/-- The name of a function: names with points between them, and perhaps a method name after
a colon. -/
def functionName : Parse String := do
  let first ← name
  let path ← loop nextNamePart first
  if ← accept ":" then
    let method ← name
    return path ++ ":" ++ method
  else
    return path

/-! ## Lists of expressions, and functions -/

variable (inner : Nested)

def expList : Parse Unit := do
  inner.exp
  many (afterComma inner.exp)

/-- What stands between the parentheses of a function header, if anything does. -/
def parameters : Parse Unit := do
  if ← accept "..." then
    record fun _ => .parameters [] true
  else
    match ← catching Halt.names? nameList with
    | .ok names => record fun _ => .parameters names false
    | .error names => record fun _ => .parameters names true

def parentheses : Parse Unit := do
  demandInHeader "("
  if ← accept ")" then
    pure ()
  else
    parameters
    demandInHeader ")"

/-- The parentheses with the parameters, and the block of a function. The name is empty if
the function has none. -/
def functionBody (name : String) : Parse Unit := do
  record fun c => .header c.line? name
  parentheses
  discard (inner.chunk [.endWord])

/-! ## Tables -/

def seesNamedField (c : Cursor) : Bool :=
  c.seesKind .name && c.next?.map (·.text) = some "="

def field : Parse Unit := do
  if ← accept "[" then
    inner.exp
    demand "]" .plain
    demand "=" .plain
    inner.exp
  else if ← look seesNamedField then
    advance
    advance
    inner.exp
  else
    inner.exp

/-- One more field after a separator, which may also end the list. -/
def nextField : Parse Bool := do
  if ← acceptAny [",", ";"] then
    if ← look (·.sees "\x7d") then
      return false
    else
      field inner
      return true
  else
    return false

/-- A table, after its opening brace. -/
def table : Parse Unit := do
  if ← accept "\x7d" then
    pure ()
  else
    field inner
    many (nextField inner)
    demand "\x7d" .plain

/-! ## Variables and calls -/

/-- Whether a token starts an index or a call. -/
def startsSuffix : Option Token → Bool
  | some t => t.kind = .string || indexStarts.contains t.text || callStarts.contains t.text
  | none => false

/-- An index, from its point or bracket on. -/
def index : Parse Unit := do
  if ← accept "." then
    discard name
  else if ← accept "[" then
    inner.exp
    demand "]" .plain

/-- The arguments of a call in parentheses, after the opening one. -/
def argumentList : Parse Unit := do
  if ← accept ")" then
    pure ()
  else
    expList inner
    demand ")" .plain

/-- The arguments of a call: a string, expressions in parentheses, or a table. -/
def arguments : Parse Unit := do
  if ← acceptKind .string then
    pure ()
  else if ← accept "(" then
    argumentList inner
  else if ← accept "\x7b" then
    table inner
  else
    unexpected .arguments

/-- The name of a method after its colon, if there is one. -/
def method? : Parse Unit := do
  if ← accept ":" then
    discard name

/-- A call, from its colon or its arguments on. -/
def call : Parse Unit := do
  method?
  arguments inner

/-- One more index or call, if one comes next. The state is whether the last one was an
index. -/
def nextSuffix (indexed : Bool) : Parse (Turn Bool Bool) := do
  if ← look (·.seesAny indexStarts) then
    index inner
    return .again true
  else if ← look fun c => c.seesAny callStarts || c.seesKind .string then
    call inner
    return .again false
  else
    return .done indexed

/-- Indexes and calls, as many as come. The value is whether the last one is an index. -/
def suffixes : Parse Bool :=
  loop (nextSuffix inner) false

/-- What indexes and calls are applied to: a name, or an expression in parentheses. -/
def primary : Parse Unit := do
  if ← accept "(" then
    inner.exp
    demand ")" .plain
  else
    discard name

/-- Where a variable or a call stands. -/
inductive Position
  | operand
  /-- At the start of a statement or after a comma on the left of an assignment; the words
  close the block around it. -/
  | statement (closers : List Closer)

/-- What a variable or a call turned out to be. -/
inductive Lead
  | variable
  | other
  /-- A misspelling of a word that starts a statement. The current token is now that
  word. -/
  | opens (word : Opener)

/-- A name that nothing follows which could make a statement of it. It is taken for a
misspelt word if it is like one; one that closes the block halts. -/
def misspelt (closers : List Closer) : Parse Lead := do
  match ← closest Closer.text closers with
  | some word =>
    reportTypo word.text
    advance
    halt (.misspeltCloser word)
  | none =>
    match ← closest Opener.text Opener.all with
    | some word =>
      reportTypo word.text
      respell word.text .keyword
      return .opens word
    | none =>
      advance
      unexpected .suffix
      return .other

/-- Whether the token behind the current one makes a target of an assignment of it. -/
def seesTarget (c : Cursor) : Bool :=
  match c.next? with
  | some t => t.text = "," || t.text = "="
  | none => false

/-- Something with indexes and calls. -/
def suffixed : Parse Lead := do
  let assignable ← suffixes inner
  return if assignable then .variable else .other

/-- A variable or a call that starts with a name. -/
def namedLead (position : Position) : Parse Lead := do
  if ← look seesTarget then
    advance
    return .variable
  else if ← look fun c => startsSuffix c.next? then
    primary inner
    suffixed inner
  else
    match position with
    | .operand =>
      advance
      return .other
    | .statement closers => misspelt closers

/-- A variable or a call that starts with an expression in parentheses. In an expression
the parentheses may stand alone. -/
def parenthesizedLead (position : Position) : Parse Lead := do
  primary inner
  if ← look fun c => startsSuffix c.current? then
    suffixed inner
  else
    match position with
    | .operand => return .other
    | .statement _ =>
      unexpected .suffix
      return .other

def lead (position : Position) : Parse Lead := do
  if ← look (·.seesKind .name) then
    namedLead inner position
  else if ← look (·.sees "(") then
    parenthesizedLead inner position
  else
    unexpected .operand
    advance
    return .other

/-! ## Operands and operators -/

def operand : Parse Unit := do
  if ← acceptAny literals then
    pure ()
  else if ← acceptKind .number then
    pure ()
  else if ← acceptKind .string then
    pure ()
  else if ← accept "function" then
    functionBody inner ""
  else if ← accept "\x7b" then
    table inner
  else
    discard (lead inner .operand)

/-- An operand with the operators in front of it. The value is whether a binary operator
follows. -/
def operandStep : Parse Bool := do
  many (acceptAny unaryOperators)
  operand inner
  acceptAny binaryOperators

def operandChain : Parse Unit :=
  many (operandStep inner)

end LuaChecker.Grammar

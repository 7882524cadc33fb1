import LuaChecker.Grammar.Expression

/-!
# The grammar

The grammar of Lua 5.1 without `goto`, as forms: words and kinds of tokens, put one after
another, chosen from, and repeated. Expressions and chunks are the only forms that contain
themselves.

A derivation (`Derives`) reads a form off the front of a list of tokens and leaves the rest
of the list. It may go through so many nested expressions and chunks, it keeps the headers
of the functions in the order in which they come, and it is maximal: where an expression
that can take an index or a call is complete, neither follows.
-/

namespace LuaChecker.Grammar

/-- A form that a row of tokens can have. -/
inductive Form
  | empty
  /-- A token with this text. -/
  | word (text : String)
  | oneOf (texts : List String)
  | ofKind (kind : Kind)
  | andThen (f g : Form)
  | either (f g : Form)
  | many (f : Form)
  /-- The form, with nothing behind it that starts an index or a call. -/
  | whole (f : Form)
  /-- The name of a function, of the given form, and its parameters in parentheses. -/
  | header (name : Form)
  | exp
  | chunk

structure Header where
  /-- The texts of the tokens of its name; there are none if the function has no name. -/
  path : List String
  /-- The line of its opening parenthesis. -/
  line : Nat
  names : List String
  /-- Whether `...` ends its parameters. -/
  variadic : Bool
  deriving DecidableEq, Repr

def Header.parameters (h : Header) : List String :=
  h.names ++ if h.variadic then [FunctionTable.variadic] else []

namespace Form

def row : List Form → Form
  | [] => empty
  | [f] => f
  | f :: fs => andThen f (row fs)

def choice : List Form → Form
  | [] => empty
  | [f] => f
  | f :: fs => either f (choice fs)

def maybe (f : Form) : Form := either f empty

/-- One or more times the form, with commas between. -/
def commaList (f : Form) : Form := row [f, many (row [word ",", f])]

def name : Form := ofKind .name

def functionName : Form :=
  row [name, many (row [word ".", name]), maybe (row [word ":", name])]

def parameters : Form :=
  maybe (choice [word "...", row [commaList name, maybe (row [word ",", word "..."])]])

def functionBody (name : Form) : Form := row [header name, chunk, word "end"]

def field : Form :=
  choice [row [word "[", exp, word "]", word "=", exp], row [name, word "=", exp], exp]

def fieldSeparator : Form := oneOf [",", ";"]

def table : Form :=
  row [word "\x7b",
    maybe (row [field, many (row [fieldSeparator, field]), maybe fieldSeparator]), word "\x7d"]

def index : Form := choice [row [word ".", name], row [word "[", exp, word "]"]]

def arguments : Form :=
  choice [ofKind .string, row [word "(", maybe (commaList exp), word ")"], table]

def call : Form := row [maybe (row [word ":", name]), arguments]

/-- Something that can take indexes and calls. -/
def primary : Form := choice [name, row [word "(", exp, word ")"]]

def suffixes : Form := many (either index call)

def prefixExp : Form := row [primary, suffixes]

def var : Form := choice [name, row [primary, suffixes, index]]

def functionCall : Form := row [primary, suffixes, call]

def value : Form :=
  choice [oneOf literals, ofKind .number, ofKind .string,
    row [word "function", functionBody empty], table, whole prefixExp]

def operand : Form := row [many (oneOf unaryOperators), value]

/-- What an expression is made of. -/
def operands : Form := row [operand, many (row [oneOf binaryOperators, operand])]

def ifStatement : Form :=
  row [word "if", exp, word "then", chunk,
    many (row [word "elseif", exp, word "then", chunk]),
    maybe (row [word "else", chunk]), word "end"]

def forStatement : Form :=
  row [word "for",
    choice [row [name, word "=", exp, word ",", exp, maybe (row [word ",", exp])],
      row [commaList name, word "in", commaList exp]],
    word "do", chunk, word "end"]

def localStatement : Form :=
  row [word "local",
    choice [row [word "function", functionBody name],
      row [commaList name, maybe (row [word "=", commaList exp])]]]

def assignment : Form := row [commaList (whole var), word "=", commaList exp]

def statement : Form :=
  choice [assignment, whole functionCall,
    row [word "do", chunk, word "end"],
    row [word "while", exp, word "do", chunk, word "end"],
    row [word "repeat", chunk, word "until", exp],
    ifStatement, forStatement,
    row [word "function", functionBody functionName],
    localStatement]

def lastStatement : Form := choice [row [word "return", maybe (commaList exp)], word "break"]

def statements : Form :=
  row [many (row [statement, maybe (word ";")]), maybe (row [lastStatement, maybe (word ";")])]

end Form

/-- The names among the tokens of a list of parameters. -/
def namesOf (ts : List Token) : List String :=
  (ts.filter (·.kind = .name)).map (·.text)

/-- Whether `...` is among the tokens of a list of parameters. -/
def hasDots (ts : List Token) : Bool :=
  ts.any (·.text = FunctionTable.variadic)

/-- `Derives n f ts rest hs`: the list `ts` starts with a row of tokens of the form `f`,
`rest` is what follows it, no more than `n` expressions and chunks are inside one another,
and `hs` are the headers of the functions. -/
inductive Derives : Nat → Form → List Token → List Token → List Header → Prop
  | empty {n ts} : Derives n .empty ts ts []
  | word {n text t ts} (h : t.text = text) : Derives n (.word text) (t :: ts) ts []
  | oneOf {n texts t ts} (h : t.text ∈ texts) : Derives n (.oneOf texts) (t :: ts) ts []
  | ofKind {n kind t ts} (h : t.kind = kind) : Derives n (.ofKind kind) (t :: ts) ts []
  | andThen {n f g ts us vs hs is} (hf : Derives n f ts us hs) (hg : Derives n g us vs is) :
      Derives n (.andThen f g) ts vs (hs ++ is)
  | left {n f g ts us hs} (h : Derives n f ts us hs) : Derives n (.either f g) ts us hs
  | right {n f g ts us hs} (h : Derives n g ts us hs) : Derives n (.either f g) ts us hs
  | manyNil {n f ts} : Derives n (.many f) ts ts []
  | manyCons {n f ts us vs hs is} (hf : Derives n f ts us hs)
      (hg : Derives n (.many f) us vs is) : Derives n (.many f) ts vs (hs ++ is)
  | whole {n f ts us hs} (h : Derives n f ts us hs) (hend : startsSuffix us.head? = false) :
      Derives n (.whole f) ts us hs
  | header {n name path opening inside closing rest}
      (hname : Derives n name (path ++ opening :: (inside ++ closing :: rest))
        (opening :: (inside ++ closing :: rest)) [])
      (hopening : opening.text = "(")
      (hinside : Derives n .parameters (inside ++ closing :: rest) (closing :: rest) [])
      (hclosing : closing.text = ")") :
      Derives n (.header name) (path ++ opening :: (inside ++ closing :: rest)) rest
        [⟨path.map (·.text), opening.line, namesOf inside, hasDots inside⟩]
  | exp {n ts us hs} (h : Derives n .operands ts us hs) : Derives (n + 1) .exp ts us hs
  | chunk {n ts us hs} (h : Derives n .statements ts us hs) : Derives (n + 1) .chunk ts us hs

end LuaChecker.Grammar

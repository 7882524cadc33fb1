/-!
# The words of the grammar

The reserved words that start a statement, those that close a block, and the texts that
tell one part of an expression from another. The order of a list matters where a misspelt
word is compared with its members: of equally good ones the first is taken.
-/

namespace LuaChecker.Grammar

inductive Opener
  | doWord
  | whileWord
  | repeatWord
  | ifWord
  | forWord
  | functionWord
  | localWord
  deriving DecidableEq, Repr

namespace Opener

def text : Opener → String
  | doWord => "do"
  | whileWord => "while"
  | repeatWord => "repeat"
  | ifWord => "if"
  | forWord => "for"
  | functionWord => "function"
  | localWord => "local"

def all : List Opener :=
  [doWord, whileWord, repeatWord, ifWord, forWord, functionWord, localWord]

def ofText? (text : String) : Option Opener :=
  all.find? (·.text = text)

end Opener

inductive Closer
  | endWord
  | untilWord
  | elseifWord
  | elseWord
  deriving DecidableEq, Repr

namespace Closer

def text : Closer → String
  | endWord => "end"
  | untilWord => "until"
  | elseifWord => "elseif"
  | elseWord => "else"

/-- What closes a branch of an `if` statement. -/
def branch : List Closer := [elseifWord, elseWord, endWord]

end Closer

def unaryOperators : List String := ["-", "not", "#"]

def binaryOperators : List String :=
  ["+", "-", "*", "/", "^", "%", "..", "<", "<=", ">", ">=", "==", "~=", "and", "or"]

/-- The values that are words or signs. -/
def literals : List String := ["nil", "false", "true", "..."]

/-- What starts an index. -/
def indexStarts : List String := ["[", "."]

/-- What starts a call, apart from a string. -/
def callStarts : List String := ["(", "\x7b", ":"]

end LuaChecker.Grammar

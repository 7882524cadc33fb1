import LuaChecker.Cursor
import LuaChecker.Grammar.Ledger
import LuaChecker.Grammar.Word
import LuaChecker.Similarity.Ratio

/-!
# Parses

A parse goes forward through the tokens from a cursor and records events; a speller tells it
which words are misspelt. It ends with a value, or it halts, which ends every parse around
it up to one that catches the halt. Nothing that was recorded has any influence on what
follows.

* `loop_eq`: the recursion equation of `loop`, the only way to repeat a parse;
* `bind_eq`: one parse after another.
-/

namespace LuaChecker.Grammar

/-- Why a parse halts. -/
inductive Halt
  /-- `...` stands in a list of names, behind these names. -/
  | ellipsis (names : List String)
  /-- A misspelling of this word, which closes the block, is read in place of a statement. -/
  | misspeltCloser (word : Closer)
  /-- The input ends in a block that is not closed. This is recorded. -/
  | endOfInput
  /-- The nesting is too deep. This is recorded. -/
  | tooDeep
  /-- A repetition is to go on though its last turn read no token, so it would never end. -/
  | endless
  deriving DecidableEq, Repr

/-- The names in front of `...`, if this is why a parse halts. -/
def Halt.names? : Halt → Option (List String)
  | .ellipsis names => some names
  | _ => none

/-- The word that is misspelt, if this is why a parse halts. -/
def Halt.closer? : Halt → Option Closer
  | .misspeltCloser word => some word
  | _ => none

/-- What a parse leads to. -/
structure Step (α : Type) where
  outcome : Except Halt α
  rest : Cursor
  events : List Event

/-- The same outcome, reached after other events. -/
def Step.behind {α : Type} (events : List Event) (s : Step α) : Step α :=
  ⟨s.outcome, s.rest, events ++ s.events⟩

/-- A parse that yields an `α`. -/
def Parse (α : Type) : Type :=
  Speller → Cursor → Step α

namespace Parse

variable {α β σ : Type}

def succeed (a : α) : Parse α := fun _ c => ⟨.ok a, c, []⟩

/-- One parse, and then another one that may depend on its value. -/
def andThen (p : Parse α) (f : α → Parse β) : Parse β := fun speller c =>
  match p speller c with
  | ⟨.error halt, rest, events⟩ => ⟨.error halt, rest, events⟩
  | ⟨.ok a, rest, events⟩ => (f a speller rest).behind events

instance : Monad Parse where
  pure := succeed
  bind := andThen

theorem pure_eq (a : α) (speller : Speller) (c : Cursor) :
    (pure a : Parse α) speller c = ⟨.ok a, c, []⟩ := rfl

theorem bind_eq (p : Parse α) (f : α → Parse β) (speller : Speller) (c : Cursor) :
    (p >>= f) speller c =
      match p speller c with
      | ⟨.error halt, rest, events⟩ => ⟨.error halt, rest, events⟩
      | ⟨.ok a, rest, events⟩ => (f a speller rest).behind events := rfl

/-! ## Looking and reading -/

/-- Looks at the tokens to come. -/
def look (f : Cursor → α) : Parse α := fun _ c => ⟨.ok (f c), c, []⟩

/-- Reads tokens. -/
def move (f : Cursor → α × Cursor) : Parse α := fun _ c => ⟨.ok (f c).1, (f c).2, []⟩

def advance : Parse Unit := move fun c => ((), c.advance)

def accept (text : String) : Parse Bool := move (·.accept text)

def acceptAny (texts : List String) : Parse Bool := move (·.acceptAny texts)

def acceptKind (kind : Kind) : Parse Bool := move (·.acceptKind kind)

def respell (text : String) (kind : Kind) : Parse Unit := move fun c => ((), c.respell text kind)

/-! ## Recording and halting -/

/-- Records an event that depends on the current token. -/
def record (event : Cursor → Event) : Parse Unit := fun _ c => ⟨.ok (), c, [event c]⟩

def report (cause : Cause) : Parse Unit := record fun c => .finding c.line? cause

/-- Records that the current token is read as another word. -/
def reportTypo (meant : String) : Parse Unit :=
  record fun c => .finding c.line? (.typo c.describe meant)

/-- Records that the current token is not what was needed. -/
def unexpected (need : Need) : Parse Unit :=
  record fun c => .finding c.line? (.unexpected c.describe need)

/-- Ends this parse and every parse around it that does not catch the halt. -/
def halt (h : Halt) : Parse α := fun _ c => ⟨.error h, c, []⟩

/-- Yields what a parse yields, or what `caught` makes of the halt with which it ends. Other
halts are passed on. -/
def catching (caught : Halt → Option β) (p : Parse α) : Parse (Except β α) := fun speller c =>
  match p speller c with
  | ⟨.ok a, rest, events⟩ => ⟨.ok (.ok a), rest, events⟩
  | ⟨.error halt, rest, events⟩ =>
    match caught halt with
    | some b => ⟨.ok (.error b), rest, events⟩
    | none => ⟨.error halt, rest, events⟩

/-- A parse in which `...` must not stand in a list of names. -/
def refusingEllipsis (p : Parse α) : Parse Unit := do
  match ← catching Halt.names? p with
  | .ok _ => pure ()
  | .error _ => unexpected .closedNames

/-! ## Asking the speller -/

/-- Whether the current token is a misspelling of a word. -/
def resembles (wanted : String) : Parse Bool := fun speller c =>
  ⟨.ok (match c.text? with
    | some text => speller.resembles text wanted
    | none => false), c, []⟩

/-- The candidate that the current token is a misspelling of. -/
def closest (text : α → String) (candidates : List α) : Parse (Option α) := fun speller c =>
  ⟨.ok (match c.text? with
    | some found => (speller.closest found (candidates.map text)).bind (candidates[·]?)
    | none => none), c, []⟩

/-- Records that a token is not there, and reads a misspelling of it in its stead. -/
def lackNoting (wanted : String) (note : Option Nat → String → Event) : Parse Unit := do
  let here ← look id
  if ← resembles wanted then
    advance
  record fun _ => note here.line? here.describe

/-- Reads a token that has to be there; `note` is the event if it is not. -/
def demandNoting (wanted : String) (note : Option Nat → String → Event) : Parse Unit := do
  if ← accept wanted then
    pure ()
  else
    lackNoting wanted note

/-- Records that a token is not there at a place of the program. -/
def lack (wanted : String) (place : Place) : Parse Unit :=
  lackNoting wanted fun line found => .finding line (.missing found wanted place)

/-- Reads a token that has to be there at a place of the program. -/
def demand (wanted : String) (place : Place) : Parse Unit :=
  demandNoting wanted fun line found => .finding line (.missing found wanted place)

/-- Reads a token that has to be there in a function header. -/
def demandInHeader (wanted : String) : Parse Unit :=
  demandNoting wanted fun line found => .headerLacks line found wanted

/-! ## Repetition -/

/-- What a turn of a repetition leads to. -/
inductive Turn (σ β : Type)
  | again (s : σ)
  | done (b : β)

/-- The loop of `loop`, with the events so far, the last one first. -/
def loopOnto (step : σ → Parse (Turn σ β)) (speller : Speller) (acc : List Event) (s : σ)
    (c : Cursor) : Step β :=
  let r := step s speller c
  match r.outcome with
  | .error halt => ⟨.error halt, r.rest, acc.reverseAux r.events⟩
  | .ok (.done b) => ⟨.ok b, r.rest, acc.reverseAux r.events⟩
  | .ok (.again s') =>
    if r.rest.size < c.size then loopOnto step speller (r.events.reverseAux acc) s' r.rest
    else ⟨.error .endless, r.rest, acc.reverseAux r.events⟩
  termination_by c.size

/-- Repeats a parse on a state until it is done. -/
def loop (step : σ → Parse (Turn σ β)) (s : σ) : Parse β := fun speller c =>
  loopOnto step speller [] s c

theorem loopOnto_eq (step : σ → Parse (Turn σ β)) (speller : Speller) (acc : List Event) (s : σ)
    (c : Cursor) :
    loopOnto step speller acc s c = (loop step s speller c).behind acc.reverse := by
  induction hn : c.size using Nat.strongRecOn generalizing acc s c with
  | _ n ih =>
    subst hn
    unfold loop loopOnto
    cases h : (step s speller c).outcome with
    | error halt => simp [h, List.reverseAux_eq, Step.behind]
    | ok turn =>
      cases turn with
      | done b => simp [h, List.reverseAux_eq, Step.behind]
      | again s' =>
        by_cases hlt : (step s speller c).rest.size < c.size
        · simp only [h, hlt, if_true]
          rw [ih _ hlt _ _ _ rfl, ih _ hlt ((step s speller c).events.reverseAux []) _ _ rfl]
          simp [List.reverseAux_eq, Step.behind]
        · simp [h, hlt, List.reverseAux_eq, Step.behind]

/-- A loop is one turn and, if that reads a token and is not the last one, the loop again. -/
theorem loop_eq (step : σ → Parse (Turn σ β)) (s : σ) (speller : Speller) (c : Cursor) :
    loop step s speller c =
      match step s speller c with
      | ⟨.error halt, rest, events⟩ => ⟨.error halt, rest, events⟩
      | ⟨.ok (.done b), rest, events⟩ => ⟨.ok b, rest, events⟩
      | ⟨.ok (.again s'), rest, events⟩ =>
        if rest.size < c.size then (loop step s' speller rest).behind events
        else ⟨.error .endless, rest, events⟩ := by
  rw [loop, loopOnto]
  rcases step s speller c with ⟨outcome, rest, events⟩
  cases outcome with
  | error halt => simp [List.reverseAux_eq]
  | ok turn =>
    cases turn with
    | done b => simp [List.reverseAux_eq]
    | again s' => simp [loopOnto_eq, List.reverseAux_eq]

/-- Repeats a parse as long as it yields `true`. -/
def many (step : Parse Bool) : Parse Unit :=
  loop (fun _ => do return if ← step then .again () else .done ()) ()

/-- A parse that goes on after a comma; the value is whether there is one. -/
def afterComma (p : Parse Unit) : Parse Bool := do
  if ← accept "," then
    p
    return true
  else
    return false

end Parse

end LuaChecker.Grammar

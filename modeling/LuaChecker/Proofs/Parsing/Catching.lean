import LuaChecker.Grammar.Program
import LuaChecker.Proofs.Parsing.Triple

/-!
# Halts that are caught

Two halts do not end the parse of a program. A list of names halts at `...`, and what stands
around the list catches this; a statement halts behind a misspelt word that closes its block,
and the block catches that. The parses here say the same by what they yield: `openNames`
yields whether `...` ended the list, and `head` and `statementOrCloser` yield the word. Each
parse that raises a halt is one of these and raises the halt behind it.

* `nameList_eq`, `lead_eq`, `statement_eq`: the parses that raise a halt;
* `operand_eq`, `target_eq`: those that never meet a misspelt closing word;
* `catching_bind`: only what is raised behind a quiet parse is caught.
-/

namespace LuaChecker.Grammar

/-- Whether a halt is a signal for a parse around it, which catches it. -/
def Halt.isSignal : Halt → Bool
  | .ellipsis _ | .misspeltCloser _ => true
  | .endOfInput | .tooDeep | .endless => false

theorem Halt.names?_of_not_isSignal (halt : Halt) (h : halt.isSignal = false) :
    halt.names? = none := by
  cases halt <;> first | rfl | cases h

theorem Halt.closer?_of_not_isSignal (halt : Halt) (h : halt.isSignal = false) :
    halt.closer? = none := by
  cases halt <;> first | rfl | cases h

namespace Parse

variable {α β γ σ : Type}

theorem behind_nil (s : Step α) : s.behind [] = s := rfl

/-- The laws of putting parses together. -/
instance : LawfulMonad Parse := by
  refine LawfulMonad.mk' Parse (fun p => ?_) (fun a f => ?_) fun p f g => ?_
  · funext speller c
    change (p >>= pure) speller c = p speller c
    rw [bind_eq]
    rcases p speller c with ⟨outcome, rest, events⟩
    cases outcome with
    | error halt => rfl
    | ok a => simp [pure_eq, Step.behind]
  · rfl
  · funext speller c
    simp only [bind_eq]
    rcases p speller c with ⟨outcome, rest, events⟩
    cases outcome with
    | error halt => rfl
    | ok a =>
      simp only [Step.behind]
      rcases f a speller rest with ⟨outcome, rest', events'⟩
      cases outcome with
      | error halt => rfl
      | ok b => simp [List.append_assoc]

theorem accept_bind (text : String) (f : Bool → Parse α) (speller : Speller) (c : Cursor) :
    (accept text >>= f) speller c =
      if c.sees text then f true speller c.advance else f false speller c := by
  rw [bind_eq]
  cases h : c.sees text <;> simp [accept, move, Cursor.accept, Cursor.advanceIf, h, behind_nil]

/-- The parse raises no signal. -/
def Quiet (p : Parse α) : Prop :=
  Triple (fun halt _ _ => halt.isSignal = false) Anywhere p fun _ => Anywhere

theorem Quiet.isSignal_eq_false {p : Parse α} (h : Quiet p) {speller : Speller} {c : Cursor}
    {halt : Halt} (hhalt : (p speller c).outcome = .error halt) : halt.isSignal = false := by
  have hs := h speller c [] trivial
  generalize p speller c = s at hs hhalt
  obtain ⟨outcome, rest, events⟩ := s
  cases hhalt
  exact hs

/-- What always yields a value raises nothing. -/
theorem Quiet.of_ok {p : Parse α} (h : ∀ speller c, ∃ a, (p speller c).outcome = .ok a) :
    Quiet p := by
  intro speller c past _
  obtain ⟨a, ha⟩ := h speller c
  generalize p speller c = s at ha ⊢
  obtain ⟨outcome, rest, events⟩ := s
  cases ha
  trivial

theorem Quiet.bind {p : Parse α} {f : α → Parse β} (hp : Quiet p) (hf : ∀ a, Quiet (f a)) :
    Quiet (p >>= f) :=
  triple_bind hp hf

theorem Quiet.loop {step : σ → Parse (Turn σ β)} (hstep : ∀ s, Quiet (step s)) (s : σ) :
    Quiet (loop step s) :=
  triple_loop_of_endless (I := fun _ => Anywhere) (fun _ _ _ _ => rfl)
    (fun s => triple_post (hstep s) fun turn _ _ _ => by cases turn <;> trivial) s

theorem Quiet.halt {h : Halt} (hh : h.isSignal = false) : Quiet (halt h : Parse α) :=
  triple_pre triple_halt fun _ _ _ => hh

/-- What is raised behind a parse is caught, if the parse itself raises nothing. -/
theorem catching_bind {caught : Halt → Option γ} {p : Parse α} (hp : Quiet p)
    (hcaught : ∀ halt, halt.isSignal = false → caught halt = none) (f : α → Parse β) :
    catching caught (p >>= f) = p >>= fun a => catching caught (f a) := by
  funext speller c
  have hquiet (halt : Halt) : (p speller c).outcome = .error halt → halt.isSignal = false :=
    hp.isSignal_eq_false
  simp only [catching, bind_eq]
  generalize p speller c = s at hquiet ⊢
  obtain ⟨outcome, rest, events⟩ := s
  cases outcome with
  | error halt => simp only [hcaught halt (hquiet halt rfl)]
  | ok a =>
    simp only [Step.behind]
    rcases f a speller rest with ⟨outcome, rest', events'⟩
    cases outcome with
    | error halt => cases h : caught halt <;> simp only [h]
    | ok b => rfl

/-- What follows a parse matters only for the values that it yields. -/
theorem bind_congr_of_yields {p : Parse α} {f g : α → Parse β}
    (h : ∀ speller c a, (p speller c).outcome = .ok a → f a = g a) : p >>= f = p >>= g := by
  funext speller c
  have hyields := h speller c
  simp only [bind_eq]
  generalize p speller c = s at hyields ⊢
  obtain ⟨outcome, rest, events⟩ := s
  cases outcome with
  | error halt => rfl
  | ok a => simp only [hyields a rfl]

theorem catching_halt {caught : Halt → Option γ} {h : Halt} {b : γ} (hb : caught h = some b) :
    catching caught (halt h : Parse α) = pure (.error b) := by
  funext speller c
  simp [catching, halt, hb, pure_eq]

end Parse

open Parse

/-! ## Lists of names -/

/-- A list of names. -/
structure Names where
  /-- The names, the last one first. -/
  reversed : List String
  /-- Whether `...` ended the list. -/
  variadic : Bool

namespace Names

def toList (ns : Names) : List String := ns.reversed.reverse

/-- Halts if `...` ended the list. -/
def raise (ns : Names) : Parse (List String) :=
  if ns.variadic then halt (.ellipsis ns.toList) else pure ns.toList

end Names

/-- One more name of a list, or `...`, after a comma. -/
def nextOpenName (ns : Names) : Parse (Turn Names Names) := do
  if ← accept "," then
    if ← accept "..." then
      return .done ⟨ns.reversed, true⟩
    else
      let next ← name
      return .again ⟨next :: ns.reversed, false⟩
  else
    return .done ns

/-- Names with commas between them; `...` may follow the last comma and ends the list. -/
def openNames : Parse Names := do
  let first ← name
  loop nextOpenName ⟨[first], false⟩

theorem loop_nextName (names : List String) :
    loop nextName names = loop nextOpenName ⟨names, false⟩ >>= Names.raise := by
  funext speller c
  induction hn : c.size using Nat.strongRecOn generalizing names c with
  | _ n ih =>
    subst hn
    rw [bind_eq, loop_eq, loop_eq, nextName, nextOpenName]
    simp only [accept_bind]
    cases hcomma : c.sees "," with
    | false => rfl
    | true =>
      simp only [if_true, accept_bind]
      cases hdots : c.advance.sees "..." with
      | true => rfl
      | false =>
        simp only [Bool.false_eq_true, if_false, bind_eq]
        rcases name speller c.advance with ⟨outcome, rest, events⟩
        cases outcome with
        | error halt => rfl
        | ok next =>
          simp only [pure_eq, Step.behind, List.append_nil]
          by_cases hlt : rest.size < c.size
          · have hmore := ih rest.size hlt (next :: names) rest rfl
            rw [bind_eq] at hmore
            simp only [hlt, if_true, hmore]
            rcases loop nextOpenName ⟨next :: names, false⟩ speller rest with
              ⟨outcome, rest', events'⟩
            cases outcome with
            | error halt => rfl
            | ok ns => simp [Step.behind, List.append_assoc]
          · simp only [hlt, if_false]

/-- A list of names halts at `...`, which an open one reads. -/
theorem nameList_eq : nameList = openNames >>= Names.raise := by
  rw [nameList, openNames, bind_assoc]
  exact bind_congr fun first => loop_nextName [first]

/-! ## Variables and calls -/

/-- What a variable or a call turned out to be, a misspelt closing word included. -/
inductive Head
  | variable
  | other
  /-- A misspelling, already read, of a word that closes the block. -/
  | closes (word : Closer)
  /-- A misspelling of a word that starts a statement. The current token is now that
  word. -/
  | opens (word : Opener)

/-- Halts behind a misspelt closing word. -/
def Head.raise : Head → Parse Lead
  | .variable => pure .variable
  | .other => pure .other
  | .closes word => halt (.misspeltCloser word)
  | .opens word => pure (.opens word)

/-- A name that nothing follows which could make a statement of it, read as the word that it
is like. -/
def misspeltHead (closers : List Closer) : Parse Head := do
  match ← closest Closer.text closers with
  | some word =>
    reportTypo word.text
    advance
    return .closes word
  | none =>
    match ← closest Opener.text Opener.all with
    | some word =>
      reportTypo word.text
      respell word.text .keyword
      return .opens word
    | none =>
      advance
      unexpected .suffix
      return .other

theorem misspelt_eq (closers : List Closer) :
    misspelt closers = misspeltHead closers >>= Head.raise := by
  rw [misspelt, misspeltHead, bind_assoc]
  refine bind_congr fun closer => ?_
  cases closer with
  | some word => rfl
  | none =>
    simp only [bind_assoc]
    refine bind_congr fun opener => ?_
    cases opener with
    | some word => simp only [bind_assoc]; rfl
    | none => simp only [bind_assoc]; rfl

variable (inner : Nested)

/-- Something with indexes and calls. -/
def suffixedHead : Parse Head := do
  let assignable ← suffixes inner
  return if assignable then .variable else .other

theorem suffixed_eq : suffixed inner = suffixedHead inner >>= Head.raise := by
  rw [suffixed, suffixedHead, bind_assoc]
  refine bind_congr fun assignable => ?_
  cases assignable <;> rfl

/-- A variable or a call that starts with a name. -/
def namedHead (position : Position) : Parse Head := do
  if ← look seesTarget then
    advance
    return .variable
  else if ← look fun c => startsSuffix c.next? then
    primary inner
    suffixedHead inner
  else
    match position with
    | .operand =>
      advance
      return .other
    | .statement closers => misspeltHead closers

theorem namedLead_eq (position : Position) :
    namedLead inner position = namedHead inner position >>= Head.raise := by
  unfold namedLead namedHead
  rw [bind_assoc]
  refine bind_congr fun isTarget => ?_
  cases isTarget with
  | true => rfl
  | false =>
    simp only [Bool.false_eq_true, if_false, bind_assoc]
    refine bind_congr fun hasSuffix => ?_
    cases hasSuffix with
    | true =>
      simp only [if_true, bind_assoc]
      exact bind_congr fun _ => suffixed_eq inner
    | false =>
      cases position with
      | operand => rfl
      | statement closers => exact misspelt_eq closers

/-- A variable or a call that starts with an expression in parentheses. -/
def parenthesizedHead (position : Position) : Parse Head := do
  primary inner
  if ← look fun c => startsSuffix c.current? then
    suffixedHead inner
  else
    match position with
    | .operand => return .other
    | .statement _ =>
      unexpected .suffix
      return .other

theorem parenthesizedLead_eq (position : Position) :
    parenthesizedLead inner position = parenthesizedHead inner position >>= Head.raise := by
  unfold parenthesizedLead parenthesizedHead
  rw [bind_assoc]
  refine bind_congr fun _ => ?_
  rw [bind_assoc]
  refine bind_congr fun hasSuffix => ?_
  cases hasSuffix with
  | true => exact suffixed_eq inner
  | false => cases position <;> rfl

def head (position : Position) : Parse Head := do
  if ← look (·.seesKind .name) then
    namedHead inner position
  else if ← look (·.sees "(") then
    parenthesizedHead inner position
  else
    unexpected .operand
    advance
    return .other

/-- Behind a misspelt closing word a variable or a call halts, where its head yields the
word. -/
theorem lead_eq (position : Position) : lead inner position = head inner position >>= Head.raise := by
  rw [lead, head, bind_assoc]
  refine bind_congr fun isName => ?_
  cases isName with
  | true => exact namedLead_eq inner position
  | false =>
    simp only [Bool.false_eq_true, if_false, bind_assoc]
    refine bind_congr fun isOpened => ?_
    cases isOpened with
    | true => exact parenthesizedLead_eq inner position
    | false => rfl

/-! ## Misspelt closing words -/

theorem triple_closest_mem {α : Type} {candidates : List α} {text : α → String}
    {P : Assertion} :
    Triple Anyhow P (closest text candidates) fun found c past =>
      P c past ∧ ∀ word ∈ found, word ∈ candidates := by
  intro speller c past h
  refine ⟨by simpa using h, fun word hword => ?_⟩
  cases htext : c.text? with
  | none => simp [htext] at hword
  | some found =>
    simp only [htext, Option.mem_def, Option.bind_eq_some_iff] at hword
    obtain ⟨index, -, hindex⟩ := hword
    exact List.mem_of_getElem? hindex

/-- The words for whose misspelling a variable or a call may be taken. -/
def Position.closers : Position → List Closer
  | .operand => []
  | .statement closers => closers

/-- A head is taken for the misspelling of a closing word only if the block around it has
that word. -/
def Head.ClosesOneOf (closers : List Closer) : Head → Prop
  | .closes word => word ∈ closers
  | _ => True

theorem misspeltHead_closes (closers : List Closer) :
    Triple Anyhow Anywhere (misspeltHead closers) fun found _ _ => found.ClosesOneOf closers := by
  refine triple_bind triple_closest_mem fun found => ?_
  cases found with
  | some word =>
    refine triple_fact fun hmem => ?_
    refine triple_bind triple_anyhow fun _ => triple_bind triple_anyhow fun _ => ?_
    exact triple_pre triple_pure fun _ _ _ => hmem word rfl
  | none =>
    refine triple_bind triple_anyhow fun found => ?_
    cases found with
    | some word =>
      refine triple_bind triple_anyhow fun _ => triple_bind triple_anyhow fun _ => ?_
      exact triple_pre triple_pure fun _ _ _ => trivial
    | none =>
      refine triple_bind triple_anyhow fun _ => triple_bind triple_anyhow fun _ => ?_
      exact triple_pre triple_pure fun _ _ _ => trivial

variable {inner : Nested} {closers : List Closer}

theorem suffixedHead_closes :
    Triple Anyhow Anywhere (suffixedHead inner) fun found _ _ => found.ClosesOneOf closers := by
  refine triple_bind triple_anyhow fun assignable => ?_
  cases assignable with
  | true => exact triple_pre triple_pure fun _ _ _ => trivial
  | false => exact triple_pre triple_pure fun _ _ _ => trivial

theorem namedHead_closes (position : Position) :
    Triple Anyhow Anywhere (namedHead inner position) fun found _ _ =>
      found.ClosesOneOf position.closers := by
  have hadvance (found : Head) (hfound : found.ClosesOneOf position.closers) :
      Triple Anyhow Anywhere (do advance; return found)
        fun found _ _ => found.ClosesOneOf position.closers :=
    triple_bind triple_anyhow fun _ => triple_pre triple_pure fun _ _ _ => hfound
  refine triple_bind triple_anyhow fun _ => triple_ite (fun _ => hadvance .variable trivial) fun _ => ?_
  refine triple_bind triple_anyhow fun _ => triple_ite (fun _ => ?_) fun _ => ?_
  · exact triple_bind triple_anyhow fun _ => suffixedHead_closes
  · cases position with
    | operand => exact hadvance .other trivial
    | statement closers => exact misspeltHead_closes closers

theorem parenthesizedHead_closes (position : Position) :
    Triple Anyhow Anywhere (parenthesizedHead inner position) fun found _ _ =>
      found.ClosesOneOf position.closers := by
  refine triple_bind triple_anyhow fun _ => triple_bind triple_anyhow fun _ => ?_
  refine triple_ite (fun _ => suffixedHead_closes) fun _ => ?_
  cases position with
  | operand => exact triple_pre triple_pure fun _ _ _ => trivial
  | statement closers =>
    exact triple_bind triple_anyhow fun _ => triple_pre triple_pure fun _ _ _ => trivial

theorem head_closes (position : Position) :
    Triple Anyhow Anywhere (head inner position) fun found _ _ =>
      found.ClosesOneOf position.closers := by
  refine triple_bind triple_anyhow fun _ => triple_ite (fun _ => namedHead_closes position) fun _ => ?_
  refine triple_bind triple_anyhow fun _ =>
    triple_ite (fun _ => parenthesizedHead_closes position) fun _ => ?_
  refine triple_bind triple_anyhow fun _ => triple_bind triple_anyhow fun _ => ?_
  exact triple_pre triple_pure fun _ _ _ => trivial

/-- Where no word closes the block, nothing is raised. -/
theorem lead_bind {position : Position} (hposition : position.closers = []) {β : Type}
    {f : Lead → Parse β} {g : Head → Parse β}
    (hfg : ∀ found : Head, found.ClosesOneOf [] → found.raise >>= f = g found) :
    lead inner position >>= f = head inner position >>= g := by
  rw [lead_eq, bind_assoc]
  refine bind_congr_of_yields fun speller c found hfound => ?_
  obtain ⟨-, -, hcloses⟩ := exists_of_outcome (head_closes position) hfound
  exact hfg found (hposition ▸ hcloses)

theorem discard_lead :
    (discard (lead inner .operand) : Parse Unit) = discard (head inner .operand) := by
  refine lead_bind rfl fun found hcloses => ?_
  cases found with
  | «variable» | other | opens => rfl
  | closes word => cases hcloses

theorem operand_eq :
    operand inner = (do
      if ← acceptAny literals then
        pure ()
      else if ← acceptKind .number then
        pure ()
      else if ← acceptKind .string then
        pure ()
      else if ← accept "function" then
        functionBody inner ""
      else if ← accept "\x7b" then
        table inner
      else
        discard (head inner .operand)) := by
  rw [operand, discard_lead]

theorem target_eq :
    target inner = (do
      match ← head inner (.statement []) with
      | .variable => pure ()
      | _ => unexpected .variable) := by
  refine lead_bind rfl fun found hcloses => ?_
  cases found with
  | «variable» | other | opens => rfl
  | closes word => cases hcloses

/-! ## Statements -/

variable (inner)

/-- A statement in a block with these closing words. The value is the closing word that was
found misspelt instead of a statement. -/
def statementOrCloser (closers : List Closer) : Parse (Option Closer) := do
  match ← acceptOpener with
  | some word =>
    opened inner word
    return none
  | none =>
    match ← head inner (.statement closers) with
    | .variable =>
      assignment inner
      return none
    | .other => return none
    | .closes word => return some word
    | .opens word =>
      advance
      opened inner word
      return none

/-- Halts behind a misspelt closing word. -/
def raiseCloser : Option Closer → Parse Unit
  | none => pure ()
  | some word => halt (.misspeltCloser word)

theorem statement_eq (closers : List Closer) :
    statement inner closers = statementOrCloser inner closers >>= raiseCloser := by
  rw [statement, statementOrCloser, bind_assoc]
  refine bind_congr fun found => ?_
  cases found with
  | some word =>
    simp only [bind_assoc, pure_bind]
    exact (bind_pure _).symm
  | none =>
    simp only [lead_eq, bind_assoc]
    refine bind_congr fun found => ?_
    cases found with
    | «variable» =>
      simp only [Head.raise, bind_assoc, pure_bind]
      exact (bind_pure _).symm
    | other | closes => rfl
    | opens word =>
      simp only [Head.raise, bind_assoc, pure_bind]
      exact bind_congr fun _ => (bind_pure _).symm

end LuaChecker.Grammar

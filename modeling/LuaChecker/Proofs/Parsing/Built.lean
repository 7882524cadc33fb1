import LuaChecker.Check
import LuaChecker.Proofs.Parsing.Catching
import LuaChecker.Proofs.Parsing.Words
import LuaChecker.Proofs.Syntax.Lexical

/-!
# What the parses of the grammar are built of

The parses of the grammar are put together from a few small ones: they look at the words of
the tokens and read them, they record a few sorts of events, and in three places they ask
the speller. What holds of these, and is kept where parses are put together, holds of every
expression and every block. `Built` lists them, so that such a fact is one induction.

* `built_nested`: expressions and blocks are built of the small parses, at every level;
* `Built.quiet`: no signal comes out of them;
* `parameters_eq`, `localNames_eq`, `nextStatement_eq`, `parse_eq`: the parses that catch a
  signal, by what they do where it is raised.
-/

namespace LuaChecker.Grammar

open Parse

/-- The parses that read the name of a function. -/
inductive Naming : Parse String → Prop
  | name : Naming Grammar.name
  | functionName : Naming Grammar.functionName

/-- A place that is named by fixed texts of the language; the header of a function is not. -/
def Place.IsFixed : Place → Prop
  | .plain | .forLoop => True
  | .after opener => opener ∈ fixedTexts
  | .header _ => False

instance : (place : Place) → Decidable place.IsFixed
  | .plain | .forLoop => .isTrue trivial
  | .after opener => inferInstanceAs (Decidable (opener ∈ fixedTexts))
  | .header _ => .isFalse id

/-- The parses that are built of the small parses of the grammar. -/
inductive Built : {α : Type} → Parse α → Prop
  | pure {α : Type} (a : α) : Built (Pure.pure a : Parse α)
  | bind {α β : Type} {p : Parse α} {f : α → Parse β} (hp : Built p) (hf : ∀ a, Built (f a)) :
      Built (p >>= f)
  | loop {σ β : Type} {step : σ → Parse (Turn σ β)} (hstep : ∀ s, Built (step s)) (s : σ) :
      Built (Parse.loop step s)
  | look {α : Type} {f : Cursor → α} (hf : ByWords f) : Built (Parse.look f)
  | move {α : Type} {f : Cursor → α × Cursor} (hf : Attempt f) : Built (Parse.move f)
  | unexpected (need : Need) : Built (Parse.unexpected need)
  | anonymous : Built (record fun c => .header c.line? "")
  /-- A name goes into a header as it was read. -/
  | named {reader : Parse String} {body : Parse Unit} (hnaming : Naming reader)
      (hreader : Built reader) (hbody : Built body) :
      Built (do let name ← reader; record fun c => .header c.line? name; body)
  | parameters (names : List String) (variadic : Bool) :
      Built (record fun _ => .parameters names variadic)
  | lack {wanted : String} {place : Place} (hwanted : wanted ∈ fixedTexts)
      (hplace : place.IsFixed) : Built (Parse.lack wanted place)
  | lackInHeader {wanted : String} (hwanted : wanted ∈ fixedTexts) :
      Built (lackNoting wanted fun line found => .headerLacks line found wanted)
  | misspelt (closers : List Closer) : Built (misspeltHead closers)
  | afterLast (closers : List Closer) : Built (Grammar.afterLast closers)
  /-- The end of the input is met only where it is looked for. -/
  | unlessAtEnd (closers : List Closer) {p : Parse BlockTurn} (hp : Built p) :
      Built (do if ← Parse.look (·.atEnd) then endOfInput closers else p)
  | tooDeep {α : Type} : Built (Grammar.tooDeep : Parse α)

/-! ## Putting parses together -/

variable {α β : Type}

theorem quiet_misspeltHead (closers : List Closer) : Quiet (misspeltHead closers) := by
  refine .bind (.of_ok fun _ _ => ⟨_, rfl⟩) fun found => ?_
  cases found with
  | some word => exact .of_ok fun _ _ => ⟨_, rfl⟩
  | none =>
    refine .bind (.of_ok fun _ _ => ⟨_, rfl⟩) fun found => ?_
    cases found with
    | some word => exact .of_ok fun _ _ => ⟨_, rfl⟩
    | none => exact .of_ok fun _ _ => ⟨_, rfl⟩

theorem quiet_afterLast (closers : List Closer) : Quiet (afterLast closers) := by
  refine .bind (.of_ok fun _ _ => ⟨_, rfl⟩) fun _ => .bind (.of_ok fun _ _ => ⟨_, rfl⟩) fun found => ?_
  cases found with
  | some word => exact .of_ok fun _ _ => ⟨_, rfl⟩
  | none => exact .of_ok fun _ _ => ⟨_, rfl⟩

theorem quiet_endOfInput (closers : List Closer) : Quiet (endOfInput closers) := by
  unfold endOfInput
  split
  · exact .of_ok fun _ _ => ⟨_, rfl⟩
  · exact .bind (.of_ok fun _ _ => ⟨_, rfl⟩) fun _ => .halt rfl

theorem quiet_lackNoting (wanted : String) (note : Option Nat → String → Event) :
    Quiet (lackNoting wanted note) := by
  refine .bind (.of_ok fun _ _ => ⟨_, rfl⟩) fun _ => .bind (.of_ok fun _ _ => ⟨_, rfl⟩) fun found => ?_
  cases found with
  | true => exact .of_ok fun _ _ => ⟨_, rfl⟩
  | false => exact .of_ok fun _ _ => ⟨_, rfl⟩

/-- What is built of the small parses raises no signal. -/
theorem Built.quiet {p : Parse α} (h : Built p) : Quiet p := by
  induction h with
  | pure | look | move | unexpected | anonymous | parameters =>
    exact .of_ok fun _ _ => ⟨_, rfl⟩
  | bind _ _ hp hf => exact .bind hp hf
  | loop _ s hstep => exact .loop hstep s
  | named _ _ _ hreader hbody =>
    exact .bind hreader fun _ => .bind (.of_ok fun _ _ => ⟨_, rfl⟩) fun _ => hbody
  | lack | lackInHeader => exact quiet_lackNoting _ _
  | misspelt closers => exact quiet_misspeltHead closers
  | afterLast closers => exact quiet_afterLast closers
  | unlessAtEnd closers _ hp =>
    refine .bind (.of_ok fun _ _ => ⟨_, rfl⟩) fun atEnd => ?_
    cases atEnd with
    | true => exact quiet_endOfInput closers
    | false => exact hp
  | tooDeep => exact .bind (.of_ok fun _ _ => ⟨_, rfl⟩) fun _ => .halt rfl

theorem Built.ite {p q : Parse α} (hp : Built p) (hq : Built q) (b : Bool) :
    Built (if b then p else q) := by
  cases b with
  | true => exact hp
  | false => exact hq

theorem Built.look_ite {p q : Parse α} {f : Cursor → Bool} (hp : Built p) (hq : Built q)
    (hf : ByWords f) : Built (do if ← Parse.look f then p else q) :=
  .bind (.look hf) (hp.ite hq)

/-- A choice after an attempt to read the current token. -/
theorem Built.move_ite {p q : Parse α} {f : Cursor → Bool × Cursor} (hp : Built p)
    (hq : Built q) (hf : Attempt f) : Built (do if ← Parse.move f then p else q) :=
  .bind (.move hf) (hp.ite hq)

theorem Built.discard {p : Parse α} (hp : Built p) : Built (Functor.discard p) :=
  .bind hp fun _ => .pure ()

theorem Built.many {step : Parse Bool} (hstep : Built step) : Built (Parse.many step) :=
  .loop (fun _ => .bind hstep fun _ => .pure _) ()

theorem Built.afterComma {p : Parse Unit} (hp : Built p) : Built (Parse.afterComma p) :=
  .move_ite (.bind hp fun _ => .pure true) (.pure false) (attempt_accept _)

theorem Built.demand {wanted : String} {place : Place} (hwanted : wanted ∈ fixedTexts)
    (hplace : place.IsFixed) : Built (Parse.demand wanted place) :=
  .move_ite (.pure ()) (.lack hwanted hplace) (attempt_accept _)

theorem Built.demandInHeader {wanted : String} (hwanted : wanted ∈ fixedTexts) :
    Built (Parse.demandInHeader wanted) :=
  .move_ite (.pure ()) (.lackInHeader hwanted) (attempt_accept _)

theorem built_advance : Built advance :=
  .move attempt_advance

theorem built_semicolon : Built (Functor.discard (accept ";")) :=
  .discard (.move (attempt_accept _))

/-! ## Names -/

theorem built_name : Built name :=
  .bind (.look (byWords_text?.comp (·.getD ""))) fun text =>
    .move_ite (.pure text) (.bind (.unexpected .name) fun _ => .pure text) (attempt_acceptKind _)

theorem built_nextOpenName (ns : Names) : Built (nextOpenName ns) := by
  have hnext : Built (do let next ← name; return (.again ⟨next :: ns.reversed, false⟩) :
      Parse (Turn Names Names)) := .bind built_name fun _ => .pure _
  exact .move_ite (.move_ite (.pure _) hnext (attempt_accept _)) (.pure _) (attempt_accept _)

theorem built_openNames : Built openNames :=
  .bind built_name fun _ => .loop built_nextOpenName _

theorem built_nextNamePart (path : String) : Built (nextNamePart path) :=
  .move_ite (.bind built_name fun _ => .pure _) (.pure _) (attempt_accept _)

theorem built_functionName : Built functionName := by
  refine .bind built_name fun first => .bind (.loop built_nextNamePart first) fun path => ?_
  exact .move_ite (.bind built_name fun _ => .pure _) (.pure _) (attempt_accept _)

/-- The parameters are recorded as they were read, `...` among them or not. -/
theorem parameters_eq :
    parameters = (do
      if ← accept "..." then
        record fun _ => .parameters [] true
      else
        let ns ← openNames
        record fun _ => .parameters ns.toList ns.variadic) := by
  refine bind_congr fun dots => ?_
  cases dots with
  | true => rfl
  | false =>
    simp only [Bool.false_eq_true, if_false, nameList_eq,
      catching_bind built_openNames.quiet Halt.names?_of_not_isSignal, bind_assoc]
    refine bind_congr fun ns => ?_
    obtain ⟨reversed, _ | _⟩ := ns
    · rfl
    · exact congrArg (· >>= _) (catching_halt (b := reversed.reverse) rfl)

theorem built_parameters : Built parameters := parameters_eq ▸
  .move_ite (.parameters [] true)
    (.bind built_openNames fun ns => .parameters ns.toList ns.variadic) (attempt_accept _)

theorem built_parentheses : Built parentheses := by
  have hinside : Built (do parameters; demandInHeader ")" : Parse Unit) :=
    .bind built_parameters fun _ => .demandInHeader (by decide)
  exact .bind (.demandInHeader (by decide)) fun _ => .move_ite (.pure ()) hinside (attempt_accept _)

/-! ## Expressions -/

/-- The parses one nesting level further in are built of the small parses. -/
class Nested.Built (inner : Nested) : Prop where
  exp : Grammar.Built inner.exp
  chunk : ∀ closers, Grammar.Built (inner.chunk closers)

variable {inner : Nested} (hi : inner.Built)
include hi

theorem built_expList : Built (expList inner) :=
  .bind hi.exp fun _ => .many (.afterComma hi.exp)

theorem built_anonymousFunction : Built (functionBody inner "") :=
  .bind .anonymous fun _ => .bind built_parentheses fun _ => .discard (hi.chunk _)

theorem built_namedFunction {reader : Parse String} (hnaming : Naming reader)
    (hreader : Built reader) :
    Built (do let name ← reader; functionBody inner name) :=
  .named hnaming hreader (.bind built_parentheses fun _ => .discard (hi.chunk _))

theorem built_field : Built (field inner) := by
  have hkeyed : Built (do
      inner.exp
      demand "]" .plain
      demand "=" .plain
      inner.exp) :=
    .bind hi.exp fun _ => .bind (.demand (by decide) (by decide)) fun _ => .bind (.demand (by decide) (by decide)) fun _ => hi.exp
  have hnamed : Built (do advance; advance; inner.exp) :=
    .bind built_advance fun _ => .bind built_advance fun _ => hi.exp
  exact .move_ite hkeyed (.look_ite hnamed hi.exp byWords_seesNamedField) (attempt_accept _)

theorem built_nextField : Built (nextField inner) := by
  have hfield : Built (do field inner; return true : Parse Bool) :=
    .bind (built_field hi) fun _ => .pure _
  exact .move_ite (.look_ite (.pure _) hfield (byWords_sees _)) (.pure _) (attempt_acceptAny _)

theorem built_table : Built (table inner) := by
  have hfields : Built (do
      field inner
      many (nextField inner)
      demand "\x7d" .plain) :=
    .bind (built_field hi) fun _ => .bind (.many (built_nextField hi)) fun _ => .demand (by decide) (by decide)
  exact .move_ite (.pure ()) hfields (attempt_accept _)

theorem built_index : Built (index inner) := by
  have hkey : Built (do inner.exp; demand "]" .plain) :=
    .bind hi.exp fun _ => .demand (by decide) (by decide)
  have hbracketed := Built.move_ite hkey (.pure ()) (attempt_accept "[")
  exact .move_ite (.discard built_name) hbracketed (attempt_accept _)

theorem built_argumentList : Built (argumentList inner) :=
  .move_ite (.pure ()) (.bind (built_expList hi) fun _ => .demand (by decide) (by decide)) (attempt_accept _)

theorem built_arguments : Built (arguments inner) := by
  have htable := Built.move_ite (built_table hi) (.unexpected .arguments) (attempt_accept "\x7b")
  have hlist := Built.move_ite (built_argumentList hi) htable (attempt_accept "(")
  exact .move_ite (.pure ()) hlist (attempt_acceptKind _)

theorem built_call : Built (call inner) := by
  have hmethod := Built.move_ite (.discard built_name) (.pure ()) (attempt_accept ":")
  exact .bind hmethod fun _ => built_arguments hi

theorem built_nextSuffix (indexed : Bool) : Built (nextSuffix inner indexed) := by
  have hcall : Built (do call inner; return .again false : Parse (Turn Bool Bool)) :=
    .bind (built_call hi) fun _ => .pure _
  have hother := Built.look_ite hcall (.pure (.done indexed)) byWords_seesCall
  exact .look_ite (.bind (built_index hi) fun _ => .pure _) hother (byWords_seesAny _)

theorem built_suffixedHead : Built (suffixedHead inner) :=
  .bind (.loop (built_nextSuffix hi) false) fun _ => .pure _

theorem built_primary : Built (primary inner) :=
  .move_ite (.bind hi.exp fun _ => .demand (by decide) (by decide)) (.discard built_name) (attempt_accept _)

theorem built_namedHead (position : Position) : Built (namedHead inner position) := by
  have htarget : Built (do advance; return .variable : Parse Head) :=
    .bind built_advance fun _ => .pure _
  have hsuffixed : Built (do primary inner; suffixedHead inner) :=
    .bind (built_primary hi) fun _ => built_suffixedHead hi
  cases position with
  | operand =>
    have halone : Built (do advance; return .other : Parse Head) :=
      .bind built_advance fun _ => .pure _
    exact .look_ite htarget (.look_ite hsuffixed halone byWords_suffixNext) byWords_seesTarget
  | statement closers =>
    have hmisspelt := Built.look_ite hsuffixed (.misspelt closers) byWords_suffixNext
    exact .look_ite htarget hmisspelt byWords_seesTarget

theorem built_parenthesizedHead (position : Position) :
    Built (parenthesizedHead inner position) := by
  have hsuffixed : Built (suffixedHead inner) := built_suffixedHead hi
  cases position with
  | operand =>
    exact .bind (built_primary hi) fun _ => .look_ite hsuffixed (.pure _) byWords_suffixNow
  | statement closers =>
    have hunexpected : Built (do unexpected .suffix; return .other : Parse Head) :=
      .bind (.unexpected _) fun _ => .pure _
    exact .bind (built_primary hi) fun _ => .look_ite hsuffixed hunexpected byWords_suffixNow

theorem built_head (position : Position) : Built (head inner position) := by
  have hother : Built (do unexpected .operand; advance; return .other : Parse Head) :=
    .bind (.unexpected _) fun _ => .bind built_advance fun _ => .pure _
  have hunnamed := Built.look_ite (built_parenthesizedHead hi position) hother (byWords_sees "(")
  exact .look_ite (built_namedHead hi position) hunnamed (byWords_seesKind _)

theorem built_operand : Built (operand inner) := by
  rw [operand_eq]
  have hhead : Built (Functor.discard (head inner .operand)) := .discard (built_head hi _)
  have htable := Built.move_ite (built_table hi) hhead (attempt_accept "\x7b")
  have hfunction := Built.move_ite (built_anonymousFunction hi) htable (attempt_accept "function")
  have hstring := Built.move_ite (.pure ()) hfunction (attempt_acceptKind .string)
  have hnumber := Built.move_ite (.pure ()) hstring (attempt_acceptKind .number)
  exact .move_ite (.pure ()) hnumber (attempt_acceptAny _)

theorem built_operandStep : Built (operandStep inner) :=
  .bind (.many (.move (attempt_acceptAny _))) fun _ =>
    .bind (built_operand hi) fun _ => .move (attempt_acceptAny _)

theorem built_operandChain : Built (operandChain inner) :=
  .many (built_operandStep hi)

/-! ## Statements -/

theorem built_untilEnd : Built (untilEnd inner) :=
  .discard (hi.chunk _)

theorem built_nextBranch (closed : Option Closer) : Built (nextBranch inner closed) := by
  unfold nextBranch
  split
  · exact .bind hi.exp fun _ => .bind (.demand (by decide) (by decide)) fun _ =>
      .bind (hi.chunk _) fun _ => .pure _
  · exact .pure _

theorem built_ifStatement : Built (ifStatement inner) := by
  refine .bind hi.exp fun _ => .bind (.demand (by decide) (by decide)) fun _ => .bind (hi.chunk _) fun first => ?_
  refine .bind (.loop (built_nextBranch hi) first) fun last => ?_
  split
  · exact built_untilEnd hi
  · exact .pure ()

theorem built_numericRange : Built (numericRange inner) :=
  .bind hi.exp fun _ => .bind (.demand (by decide) (by decide)) fun _ => .bind hi.exp fun _ =>
    .move_ite hi.exp (.pure ()) (attempt_accept _)

theorem built_genericRange : Built (genericRange inner) :=
  .bind (.many (.afterComma (.discard built_name))) fun _ =>
    .bind (.demand (by decide) (by decide)) fun _ => built_expList hi

theorem built_forStatement : Built (forStatement inner) := by
  have hbody : Built (do demand "do" .forLoop; untilEnd inner) :=
    .bind (.demand (by decide) (by decide)) fun _ => built_untilEnd hi
  refine .bind (.discard built_name) fun _ => .move_ite ?_ ?_ (attempt_accept _)
  · exact .bind (built_numericRange hi) fun _ => hbody
  · exact .bind (built_genericRange hi) fun _ => hbody

omit hi in
/-- Names that are declared with `local` are refused if `...` ends them. -/
theorem localNames_eq :
    localNames = (do
      let ns ← openNames
      if ns.variadic then
        unexpected .closedNames) := by
  simp only [localNames, refusingEllipsis, nameList_eq,
    catching_bind built_openNames.quiet Halt.names?_of_not_isSignal, bind_assoc]
  refine bind_congr fun ns => ?_
  obtain ⟨reversed, _ | _⟩ := ns
  · rfl
  · exact congrArg (· >>= _) (catching_halt (b := reversed.reverse) rfl)

omit hi in
theorem built_localNames : Built localNames :=
  localNames_eq ▸ .bind built_openNames fun _ => .ite (.unexpected _) (.pure ()) _

theorem built_localValues : Built (localValues inner) :=
  .move_ite (built_expList hi) (.pure ()) (attempt_accept _)

theorem built_localStatement : Built (localStatement inner) :=
  .move_ite (built_namedFunction hi .name built_name)
    (.bind built_localNames fun _ => built_localValues hi) (attempt_accept _)

theorem built_opened (word : Opener) : Built (opened inner word) := by
  cases word with
  | doWord => exact built_untilEnd hi
  | whileWord =>
    exact .bind hi.exp fun _ => .bind (.demand (by decide) (by decide)) fun _ => built_untilEnd hi
  | repeatWord => exact .bind (.discard (hi.chunk _)) fun _ => hi.exp
  | ifWord => exact built_ifStatement hi
  | forWord => exact built_forStatement hi
  | functionWord => exact built_namedFunction hi .functionName built_functionName
  | localWord => exact built_localStatement hi

theorem built_target : Built (target inner) := by
  rw [target_eq]
  refine .bind (built_head hi _) fun found => ?_
  cases found with
  | «variable» => exact .pure ()
  | other | closes | opens => exact .unexpected _

theorem built_assignment : Built (assignment inner) :=
  .bind (.many (.afterComma (built_target hi))) fun _ =>
    .move_ite (built_expList hi) (.lack (by decide) (by decide)) (attempt_accept _)

theorem built_statementOrCloser (closers : List Closer) :
    Built (statementOrCloser inner closers) := by
  refine .bind (.move attempt_opener) fun found => ?_
  cases found with
  | some word => exact .bind (built_opened hi word) fun _ => .pure none
  | none =>
    refine .bind (built_head hi _) fun found => ?_
    cases found with
    | «variable» => exact .bind (built_assignment hi) fun _ => .pure none
    | other => exact .pure none
    | closes word => exact .pure (some word)
    | opens word =>
      exact .bind built_advance fun _ => .bind (built_opened hi word) fun _ => .pure none

/-! ## Blocks -/

theorem built_returnValues (closers : List Closer) : Built (returnValues inner closers) :=
  .look_ite (built_expList hi) (.pure ()) (byWords_seesValues closers)

omit hi in
/-- A statement is read, or the misspelt closing word that stands in its place. -/
theorem nextStatement_eq [hi : inner.Built] (closers : List Closer) :
    nextStatement inner closers = (do
      if ← accept "break" then
        discard (accept ";")
        return .again true
      else if ← accept "return" then
        returnValues inner closers
        discard (accept ";")
        return .again true
      else
        match ← statementOrCloser inner closers with
        | some word => return .done (some word)
        | none =>
          discard (accept ";")
          return .again false) := by
  have hquiet := (built_statementOrCloser hi closers).quiet
  simp only [nextStatement, statement_eq, catching_bind hquiet Halt.closer?_of_not_isSignal,
    bind_assoc]
  refine bind_congr fun isBreak => ?_
  cases isBreak with
  | true => rfl
  | false =>
    refine bind_congr fun isReturn => ?_
    cases isReturn with
    | true => rfl
    | false =>
      refine bind_congr fun found => ?_
      cases found with
      | some word => exact congrArg (· >>= _) (catching_halt (b := word) rfl)
      | none => rfl

theorem built_nextStatement (closers : List Closer) : Built (nextStatement inner closers) := by
  have hbreak : Built (do discard (accept ";"); return .again true : Parse BlockTurn) :=
    .bind built_semicolon fun _ => .pure _
  have hreturn : Built (do
      returnValues inner closers
      discard (accept ";")
      return .again true : Parse BlockTurn) :=
    .bind (built_returnValues hi closers) fun _ => hbreak
  rw [nextStatement_eq]
  refine .move_ite hbreak (.move_ite hreturn ?_ (attempt_accept _)) (attempt_accept _)
  refine .bind (built_statementOrCloser hi closers) fun found => ?_
  cases found with
  | some word => exact .pure _
  | none => exact .bind built_semicolon fun _ => .pure _

theorem built_blockTurn (closers : List Closer) (ended : Bool) :
    Built (blockTurn inner closers ended) := by
  refine .unlessAtEnd closers (.bind (.move (attempt_closer closers)) fun found => ?_)
  cases found with
  | some word => exact .pure _
  | none => exact .ite (.afterLast closers) (built_nextStatement hi closers) ended

theorem built_block (closers : List Closer) : Built (block inner closers) :=
  .loop (built_blockTurn hi closers) false

omit hi

theorem built_nested (levels : Nat) : (nested levels).Built := by
  induction levels with
  | zero => exact ⟨.tooDeep, fun _ => .tooDeep⟩
  | succ levels ih => exact ⟨built_operandChain ih, built_block ih⟩

instance (levels : Nat) : (nested levels).Built :=
  built_nested levels

theorem built_program : Built program :=
  (built_nested maxLevels).chunk []

/-- No list of names around a program refuses an ellipsis: none comes out of it. -/
theorem parse_eq (speller : Speller) (ts : List Token) :
    parse speller ts = .ofEvents (program speller (.ofList ts)).events := by
  have hcaught : catching Halt.names? program = program >>= fun closed => pure (.ok closed) :=
    calc catching Halt.names? program
        = catching Halt.names? (program >>= pure) := by rw [bind_pure]
      _ = program >>= fun closed => pure (.ok closed) :=
          catching_bind built_program.quiet Halt.names?_of_not_isSignal pure
  rw [parse, refusingEllipsis, hcaught, bind_assoc, bind_eq]
  rcases program speller (.ofList ts) with ⟨outcome, rest, events⟩
  cases outcome with
  | error halt => rfl
  | ok closed => simp [Step.behind, Parse.pure_eq]

theorem diagnostics_checkTokens (threshold : Float) (ts : List Token) :
    (checkTokens threshold ts).diagnostics =
      (Ledger.ofEvents (program (.ofThreshold threshold) (.ofList ts)).events).diagnostics := by
  rw [checkTokens, parse_eq]

end LuaChecker.Grammar

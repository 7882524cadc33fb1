import LuaChecker.Proofs.Parsing.Invariant

/-!
# Headers and the words in front of them

A function header is recorded only behind a word `function` that the parse has read, or
behind a name that it has reported as a misspelling of this word. So the headers can be
counted against the words: each word read pays for one header, and so does each such report.
The words that are read and have no header yet are followed through the grammar.

* `Funded`: the headers so far are paid, and so many words are left over;
* `Funds`: a parse pays for its own headers;
* `funds_nested`: expressions and blocks do, at every level;
* `program_headers`: the headers of a program.
-/

namespace LuaChecker.Grammar

open Parse

/-! ## Words and headers -/

/-- The number of tokens that are the word `function`. -/
def functionWords (ts : List Token) : Nat :=
  ts.countP (·.text = "function")

namespace Event

def isHeader : Event → Bool
  | .header _ _ => true
  | _ => false

/-- The event reports a misspelling of the word `function`. -/
def isFunctionTypo : Event → Bool
  | .finding _ (.typo _ meant) => meant = "function"
  | _ => false

/-- The event reports that a function is declared again. Only the ledger knows of that. -/
def isRedefinition : Event → Bool
  | .finding _ (.redefined _) => true
  | _ => false

end Event

/-- The number of headers that are to follow this word. -/
def Opener.headers : Opener → Nat
  | .functionWord => 1
  | _ => 0

/-- Every header so far is behind one of `words` words or behind a report, and `spare` of
these have no header yet. -/
structure Funded (words spare : Nat) (c : Cursor) (past : List Event) : Prop where
  paid : past.countP Event.isHeader + functionWords c.tokens + spare ≤
    words + past.countP Event.isFunctionTypo
  parsed : ∀ e ∈ past, e.isRedefinition = false

namespace Funded

variable {words spare : Nat} {c : Cursor} {past : List Event}

theorem record (h : Funded words spare c past) {e : Event} (hheader : e.isHeader = false)
    (hparsed : e.isRedefinition = false) : Funded words spare c (past ++ [e]) := by
  have hpaid := h.paid
  refine ⟨?_, List.forall_mem_append.mpr ⟨h.parsed, List.forall_mem_singleton.mpr hparsed⟩⟩
  simp only [List.countP_append, List.countP_singleton, hheader]
  simp only [Bool.false_eq_true, if_false]
  omega

theorem header (h : Funded words (spare + 1) c past) (line : Option Nat) (name : String) :
    Funded words spare c (past ++ [.header line name]) := by
  have hpaid := h.paid
  refine ⟨?_, List.forall_mem_append.mpr ⟨h.parsed, List.forall_mem_singleton.mpr rfl⟩⟩
  simp only [List.countP_append, List.countP_singleton, Event.isHeader, Event.isFunctionTypo]
  simp only [Bool.false_eq_true, if_false, if_true]
  omega

theorem typo (h : Funded words spare c past) (line : Option Nat) (found : String)
    (word : Opener) :
    Funded words (spare + word.headers) c (past ++ [.finding line (.typo found word.text)]) := by
  have hpaid := h.paid
  have hword : word.headers =
      if Event.isFunctionTypo (.finding line (.typo found word.text)) then 1 else 0 := by
    cases word <;> rfl
  refine ⟨?_, List.forall_mem_append.mpr ⟨h.parsed, List.forall_mem_singleton.mpr rfl⟩⟩
  simp only [List.countP_append, List.countP_singleton, Event.isHeader, hword]
  simp only [Bool.false_eq_true, if_false]
  omega

theorem advance (h : Funded words spare c past) : Funded words spare c.advance past := by
  have hpaid := h.paid
  have hle : functionWords c.advance.tokens ≤ functionWords c.tokens := by
    rw [c.tokens_advance]
    exact (List.tail_sublist _).countP_le
  exact ⟨by omega, h.parsed⟩

theorem advance_sees (h : Funded words spare c past) {word : Opener}
    (hsees : c.sees word.text = true) : Funded words (spare + word.headers) c.advance past := by
  cases word with
  | functionWord =>
    have hpaid := h.paid
    have hadvance : functionWords c.tokens = functionWords c.advance.tokens + 1 := by
      obtain ⟨ts, n, hn⟩ := c
      cases ts with
      | nil => cases hsees
      | cons t ts =>
        have htext : t.text = "function" := by
          simpa [Cursor.sees, Cursor.text?, Cursor.current?, Opener.text] using hsees
        simp [functionWords, htext]
    exact ⟨by simp only [Opener.headers]; omega, h.parsed⟩
  | _ => exact h.advance

theorem respell {word : Opener} (h : Funded words (spare + word.headers) c past) :
    Funded words spare (c.respell word.text .keyword) past := by
  have hpaid := h.paid
  have hle : functionWords (c.respell word.text .keyword).tokens ≤
      functionWords c.tokens + word.headers := by
    obtain ⟨ts, n, hn⟩ := c
    cases ts with
    | nil => exact Nat.zero_le _
    | cons t ts =>
      have hword : (if decide (word.text = "function") = true then 1 else 0) = word.headers := by
        cases word <;> rfl
      simp only [functionWords, Cursor.respell, List.countP_cons, hword]
      omega
  exact ⟨by omega, h.parsed⟩

end Funded

/-! ## Parses that pay for their headers -/

variable {α β σ : Type} {words : Nat}

/-- The parse reads a word `function`, or reports one, for each header that it records. -/
def Funds (words : Nat) (p : Parse α) : Prop :=
  ∀ spare, Keeps (Funded words spare) p

/-- A word that is read already pays for the first header of the parse. -/
def FundsBehind (words : Nat) (word : Opener) (p : Parse Unit) : Prop :=
  ∀ spare, Triple (fun _ => Funded words spare) (Funded words (spare + word.headers)) p
    fun _ => Funded words spare

namespace Funds

theorem pure {a : α} : Funds words (Pure.pure a : Parse α) := fun _ => triple_pure_keep

theorem bind {p : Parse α} {f : α → Parse β} (hp : Funds words p)
    (hf : ∀ a, Funds words (f a)) : Funds words (p >>= f) := fun spare => triple_bind (hp spare) fun a => hf a spare

theorem ite {p q : Parse α} (hp : Funds words p) (hq : Funds words q) (b : Bool) :
    Funds words (if b then p else q) := fun spare =>
  triple_ite (fun _ => hp spare) fun _ => hq spare

theorem look {f : Cursor → α} : Funds words (Parse.look f) := fun _ => triple_look_keep

theorem move {f : Cursor → α × Cursor} (hf : Attempt f) : Funds words (Parse.move f) :=
  fun _ => keeps_move (·.advance) hf

theorem record {event : Cursor → Event} (hheader : ∀ c, (event c).isHeader = false)
    (hparsed : ∀ c, (event c).isRedefinition = false) : Funds words (Parse.record event) :=
  fun _ => triple_pre triple_record fun c _ h => h.record (hheader c) (hparsed c)

theorem unexpected (need : Need) : Funds words (Parse.unexpected need) :=
  .record (fun _ => rfl) fun _ => rfl

theorem loop {step : σ → Parse (Turn σ β)} (hstep : ∀ s, Funds words (step s)) (s : σ) :
    Funds words (Parse.loop step s) := by
  refine fun spare => triple_loop_of_endless (I := fun _ => Funded words spare)
    (fun _ _ _ h => h) (fun s => triple_post (hstep s spare) fun turn _ _ h => ?_) s
  cases turn with
  | again => exact h
  | done => exact h

theorem look_ite {p q : Parse α} {f : Cursor → Bool} (hp : Funds words p) (hq : Funds words q) :
    Funds words (do if ← Parse.look f then p else q) :=
  look.bind (hp.ite hq)

theorem move_ite {p q : Parse α} {f : Cursor → Bool × Cursor} (hp : Funds words p)
    (hq : Funds words q) (hf : Attempt f) : Funds words (do if ← Parse.move f then p else q) :=
  (Funds.move hf).bind (hp.ite hq)

theorem discard {p : Parse α} (hp : Funds words p) : Funds words (Functor.discard p) :=
  hp.bind fun _ => .pure

theorem many {step : Parse Bool} (hstep : Funds words step) : Funds words (Parse.many step) :=
  .loop (fun _ => hstep.bind fun _ => .pure) ()

theorem afterComma {p : Parse Unit} (hp : Funds words p) : Funds words (Parse.afterComma p) :=
  .move_ite (hp.bind fun _ => .pure) .pure (attempt_accept _)

/-- A parse that goes on behind a word, if it is there. -/
theorem accept_ite {p q : Parse Unit} {word : Opener} (hp : FundsBehind words word p)
    (hq : Funds words q) : Funds words (do if ← accept word.text then p else q) := by
  intro spare
  refine triple_bind (Q := fun found => Funded words (spare + if found then word.headers else 0))
    ?_ fun found => ?_
  · refine triple_pre triple_move fun c past h => ?_
    cases hsees : c.sees word.text with
    | true => simpa [Cursor.accept, Cursor.advanceIf, hsees] using h.advance_sees hsees
    | false => simpa [Cursor.accept, Cursor.advanceIf, hsees] using h
  · cases found with
    | true => exact hp spare
    | false => exact hq spare

theorem behind {p : Parse Unit} (hp : Funds words p) {word : Opener} (hword : word.headers = 0) :
    FundsBehind words word p := by
  intro spare
  rw [hword]
  exact hp spare

end Funds

theorem funds_lackNoting {wanted : String} {note : Option Nat → String → Event}
    (hheader : ∀ line found, (note line found).isHeader = false)
    (hparsed : ∀ line found, (note line found).isRedefinition = false) :
    Funds words (lackNoting wanted note) := by
  intro spare
  refine triple_bind triple_look_keep fun here => triple_bind triple_resembles fun alike => ?_
  have hnote : Keeps (Funded words spare) (record fun _ => note here.line? here.describe) :=
    Funds.record (fun _ => hheader _ _) (fun _ => hparsed _ _) spare
  cases alike with
  | true => exact triple_bind (Funds.move attempt_advance spare) fun _ => hnote
  | false => exact hnote

theorem funds_lack (wanted : String) (place : Place) : Funds words (lack wanted place) :=
  funds_lackNoting (fun _ _ => rfl) fun _ _ => rfl

theorem funds_demand (wanted : String) (place : Place) : Funds words (demand wanted place) :=
  .move_ite .pure (funds_lack wanted place) (attempt_accept _)

theorem funds_demandInHeader (wanted : String) : Funds words (demandInHeader wanted) :=
  .move_ite .pure (funds_lackNoting (fun _ _ => rfl) fun _ _ => rfl) (attempt_accept _)

/-! ## Names -/

theorem funds_name : Funds words name :=
  Funds.look.bind fun _ =>
    .move_ite .pure ((Funds.unexpected .name).bind fun _ => .pure) (attempt_acceptKind _)

theorem funds_nextOpenName (ns : Names) : Funds words (nextOpenName ns) :=
  .move_ite (.move_ite .pure (funds_name.bind fun _ => .pure) (attempt_accept _)) .pure
    (attempt_accept _)

theorem funds_openNames : Funds words openNames :=
  funds_name.bind fun _ => .loop funds_nextOpenName _

theorem funds_nextNamePart (path : String) : Funds words (nextNamePart path) :=
  .move_ite (funds_name.bind fun _ => .pure) .pure (attempt_accept _)

theorem funds_functionName : Funds words functionName :=
  funds_name.bind fun first => (Funds.loop funds_nextNamePart first).bind fun _ =>
    .move_ite (funds_name.bind fun _ => .pure) .pure (attempt_accept _)

theorem funds_parameters : Funds words parameters := by
  rw [parameters_eq]
  exact .move_ite (.record (fun _ => rfl) fun _ => rfl)
    (funds_openNames.bind fun _ => .record (fun _ => rfl) fun _ => rfl) (attempt_accept _)

theorem funds_parentheses : Funds words parentheses :=
  (funds_demandInHeader "(").bind fun _ =>
    .move_ite .pure (funds_parameters.bind fun _ => funds_demandInHeader ")") (attempt_accept _)

/-! ## Expressions -/

/-- The parses one nesting level further in pay for their headers. -/
structure Nested.Funds (words : Nat) (inner : Nested) : Prop where
  exp : Grammar.Funds words inner.exp
  chunk : ∀ closers, Grammar.Funds words (inner.chunk closers)

variable {inner : Nested} (hi : inner.Funds words)
include hi

theorem funds_expList : Funds words (expList inner) :=
  hi.exp.bind fun _ => .many (.afterComma hi.exp)

/-- The one place at which headers are recorded. -/
theorem funds_functionBody (name : String) :
    FundsBehind words .functionWord (functionBody inner name) := by
  intro spare
  refine triple_bind (Q := fun _ => Funded words spare) ?_ fun _ => ?_
  · exact triple_pre triple_record fun c _ h => h.header c.line? name
  · exact (funds_parentheses.bind fun _ => (hi.chunk _).discard) spare

theorem funds_field : Funds words (field inner) := by
  have hkeyed : Funds words (do
      inner.exp
      demand "]" .plain
      demand "=" .plain
      inner.exp) :=
    hi.exp.bind fun _ => (funds_demand _ _).bind fun _ => (funds_demand _ _).bind fun _ => hi.exp
  have hnamed : Funds words (do advance; advance; inner.exp) :=
    (Funds.move attempt_advance).bind fun _ => (Funds.move attempt_advance).bind fun _ => hi.exp
  exact .move_ite hkeyed (.look_ite hnamed hi.exp) (attempt_accept _)

theorem funds_nextField : Funds words (nextField inner) := by
  have hfield : Funds words (do field inner; return true) :=
    (funds_field hi).bind fun _ => .pure
  exact .move_ite (.look_ite .pure hfield) .pure (attempt_acceptAny _)

theorem funds_table : Funds words (table inner) := by
  have hfields : Funds words (do
      field inner
      many (nextField inner)
      demand "\x7d" .plain) :=
    (funds_field hi).bind fun _ => (Funds.many (funds_nextField hi)).bind fun _ =>
      funds_demand _ _
  exact .move_ite .pure hfields (attempt_accept _)

theorem funds_index : Funds words (index inner) := by
  have hkey : Funds words (do inner.exp; demand "]" .plain) :=
    hi.exp.bind fun _ => funds_demand _ _
  exact .move_ite funds_name.discard (.move_ite hkey .pure (attempt_accept _)) (attempt_accept _)

theorem funds_argumentList : Funds words (argumentList inner) :=
  .move_ite .pure ((funds_expList hi).bind fun _ => funds_demand _ _) (attempt_accept _)

theorem funds_arguments : Funds words (arguments inner) := by
  have htable := Funds.move_ite (funds_table hi) (.unexpected .arguments) (attempt_accept "\x7b")
  have hlist := Funds.move_ite (funds_argumentList hi) htable (attempt_accept "(")
  exact .move_ite .pure hlist (attempt_acceptKind _)

theorem funds_call : Funds words (call inner) := by
  have hmethod : Funds words method? := .move_ite funds_name.discard .pure (attempt_accept ":")
  exact hmethod.bind fun _ => funds_arguments hi

theorem funds_nextSuffix (indexed : Bool) : Funds words (nextSuffix inner indexed) :=
  .look_ite ((funds_index hi).bind fun _ => .pure)
    (.look_ite ((funds_call hi).bind fun _ => .pure) .pure)

theorem funds_primary : Funds words (primary inner) :=
  .move_ite (hi.exp.bind fun _ => funds_demand _ _) funds_name.discard (attempt_accept _)

/-! ## Misspelt words -/

/-- A name that is taken for a misspelling pays for a header, once it is read. -/
def fundedHead (words spare : Nat) (found : Head) : Assertion := fun c past =>
  Funded words spare c past ∧
    ∀ word, found = .opens word → Funded words (spare + word.headers) c.advance past

/-- A parse that pays for its headers, and yields what a statement starts with. -/
def FundsHead (words : Nat) (p : Parse Head) : Prop :=
  ∀ spare, Triple (fun _ => Funded words spare) (Funded words spare) p (fundedHead words spare)

omit hi in
theorem Funds.head {p : Parse Unit} {found : Head} (hp : Funds words p)
    (hfound : ∀ word, found ≠ .opens word) : FundsHead words (do p; return found) :=
  fun spare => triple_bind (hp spare) fun _ => triple_pre triple_pure fun _ _ h =>
    ⟨h, fun word heq => absurd heq (hfound word)⟩

omit hi in
theorem FundsHead.look_ite {p q : Parse Head} {f : Cursor → Bool} (hp : FundsHead words p)
    (hq : FundsHead words q) : FundsHead words (do if ← Parse.look f then p else q) :=
  fun spare => triple_bind triple_look_keep fun _ =>
    triple_ite (fun _ => hp spare) fun _ => hq spare

omit hi in
theorem FundsHead.behind {p : Parse Unit} {q : Parse Head} (hq : FundsHead words q)
    (hp : Funds words p) : FundsHead words (do p; q) :=
  fun spare => triple_bind (hp spare) fun _ => hq spare

omit hi in
/-- The word that a name is taken for is reported, and will be read. -/
theorem fundsHead_misspeltHead (closers : List Closer) : FundsHead words (misspeltHead closers) := by
  have hadvance : Funds words advance := .move attempt_advance
  intro spare
  refine triple_bind triple_closest fun found => ?_
  cases found with
  | some word =>
    have hreport : Funds words (reportTypo word.text) := .record (fun _ => rfl) fun _ => rfl
    have hcloses : FundsHead words (do advance; return .closes word) := hadvance.head nofun
    exact hcloses.behind hreport spare
  | none =>
    refine triple_bind triple_closest fun found => ?_
    cases found with
    | some word =>
      refine triple_bind (Q := fun _ => Funded words (spare + word.headers)) ?_ fun _ => ?_
      · exact triple_pre triple_record fun c _ h => h.typo c.line? c.describe word
      refine triple_bind (Q := fun _ => fundedHead words spare (.opens word)) ?_ fun _ => ?_
      · refine triple_pre triple_move fun c past h => ⟨h.respell, fun word' heq => ?_⟩
        obtain rfl := Head.opens.inj heq
        have hrest : (c.respell word.text .keyword).advance = c.advance := by
          obtain ⟨ts, n, hn⟩ := c
          cases ts <;> rfl
        rw [hrest]
        exact h.advance
      · exact triple_pure
    | none =>
      have hother : FundsHead words (do unexpected .suffix; return .other) :=
        (Funds.unexpected .suffix).head nofun
      exact hother.behind hadvance spare

theorem fundsHead_suffixedHead : FundsHead words (suffixedHead inner) := by
  have hloop : Funds words (suffixes inner) := .loop (funds_nextSuffix hi) false
  refine fun spare => triple_bind (hloop spare) fun indexed => ?_
  refine triple_pre triple_pure fun _ _ h => ⟨h, fun word heq => ?_⟩
  cases indexed with
  | true => cases heq
  | false => cases heq

theorem fundsHead_namedHead (position : Position) :
    FundsHead words (namedHead inner position) := by
  have hadvance : Funds words advance := .move attempt_advance
  have hsuffixed : FundsHead words (do primary inner; suffixedHead inner) :=
    (fundsHead_suffixedHead hi).behind (funds_primary hi)
  cases position with
  | operand => exact .look_ite (hadvance.head nofun) (.look_ite hsuffixed (hadvance.head nofun))
  | statement closers =>
    exact .look_ite (hadvance.head nofun) (.look_ite hsuffixed (fundsHead_misspeltHead closers))

theorem fundsHead_parenthesizedHead (position : Position) :
    FundsHead words (parenthesizedHead inner position) := by
  refine FundsHead.behind ?_ (funds_primary hi)
  cases position with
  | operand =>
    refine .look_ite (fundsHead_suffixedHead hi) fun spare => triple_pre triple_pure fun _ _ h => ?_
    exact ⟨h, nofun⟩
  | statement closers =>
    exact .look_ite (fundsHead_suffixedHead hi) ((Funds.unexpected .suffix).head nofun)

theorem fundsHead_head (position : Position) : FundsHead words (head inner position) := by
  have hadvance : Funds words advance := .move attempt_advance
  have hother : FundsHead words (do unexpected .operand; advance; return .other) :=
    FundsHead.behind (hadvance.head nofun) (.unexpected .operand)
  exact .look_ite (fundsHead_namedHead hi position)
    (.look_ite (fundsHead_parenthesizedHead hi position) hother)

theorem funds_head (position : Position) : Funds words (head inner position) := fun spare =>
  triple_post (fundsHead_head hi position spare) fun _ _ _ h => h.1

/-! ## Operands and operators -/

theorem funds_operand : Funds words (operand inner) := by
  rw [operand_eq]
  have hread : Funds words (pure () : Parse Unit) := .pure
  have hhead : Funds words (discard (head inner .operand)) := (funds_head hi _).discard
  have htable := Funds.move_ite (funds_table hi) hhead (attempt_accept "\x7b")
  have hfunction := Funds.accept_ite (funds_functionBody hi "") htable
  have hstring := Funds.move_ite hread hfunction (attempt_acceptKind .string)
  have hnumber := Funds.move_ite hread hstring (attempt_acceptKind .number)
  exact .move_ite .pure hnumber (attempt_acceptAny _)

theorem funds_operandChain : Funds words (operandChain inner) :=
  .many ((Funds.many (.move (attempt_acceptAny _))).bind fun _ =>
    (funds_operand hi).bind fun _ => .move (attempt_acceptAny _))

/-! ## Statements -/

theorem funds_untilEnd : Funds words (untilEnd inner) :=
  (hi.chunk _).discard

theorem funds_nextBranch (closed : Option Closer) : Funds words (nextBranch inner closed) := by
  unfold nextBranch
  split
  · exact hi.exp.bind fun _ => (funds_demand _ _).bind fun _ => (hi.chunk _).bind fun _ => .pure
  · exact .pure

theorem funds_ifStatement : Funds words (ifStatement inner) := by
  refine hi.exp.bind fun _ => (funds_demand _ _).bind fun _ => (hi.chunk _).bind fun first => ?_
  refine (Funds.loop (funds_nextBranch hi) first).bind fun last => ?_
  split
  · exact funds_untilEnd hi
  · exact .pure

theorem funds_numericRange : Funds words (numericRange inner) :=
  hi.exp.bind fun _ => (funds_demand _ _).bind fun _ => hi.exp.bind fun _ =>
    .move_ite hi.exp .pure (attempt_accept _)

theorem funds_genericRange : Funds words (genericRange inner) :=
  (Funds.many (.afterComma funds_name.discard)).bind fun _ =>
    (funds_demand _ _).bind fun _ => funds_expList hi

theorem funds_forStatement : Funds words (forStatement inner) := by
  have hbody : Funds words (do demand "do" .forLoop; untilEnd inner) :=
    (funds_demand _ _).bind fun _ => funds_untilEnd hi
  exact funds_name.discard.bind fun _ => .move_ite ((funds_numericRange hi).bind fun _ => hbody)
    ((funds_genericRange hi).bind fun _ => hbody) (attempt_accept _)

theorem funds_localValues : Funds words (localValues inner) :=
  .move_ite (funds_expList hi) .pure (attempt_accept _)

theorem fundsBehind_named {reader : Parse String} (hreader : Funds words reader) :
    FundsBehind words .functionWord (do let name ← reader; functionBody inner name) := by
  refine fun spare => triple_bind (triple_halted (hreader (spare + 1)) fun _ _ _ h => ?_)
    fun name => funds_functionBody hi name spare
  exact ⟨Nat.le_trans (Nat.le_succ _) h.paid, h.parsed⟩

omit hi in
theorem funds_localNames : Funds words localNames :=
  localNames_eq ▸ funds_openNames.bind fun names => .ite (.unexpected _) .pure names.variadic

theorem funds_localStatement : Funds words (localStatement inner) :=
  .accept_ite (fundsBehind_named hi funds_name)
    (funds_localNames.bind fun _ => funds_localValues hi)

theorem fundsBehind_opened (word : Opener) : FundsBehind words word (opened inner word) := by
  cases word with
  | doWord => exact (funds_untilEnd hi).behind rfl
  | whileWord =>
    have hloop : Funds words (opened inner .whileWord) :=
      hi.exp.bind fun _ => (funds_demand _ _).bind fun _ => funds_untilEnd hi
    exact hloop.behind rfl
  | repeatWord =>
    have hloop : Funds words (opened inner .repeatWord) :=
      (hi.chunk _).discard.bind fun _ => hi.exp
    exact hloop.behind rfl
  | ifWord => exact (funds_ifStatement hi).behind rfl
  | forWord => exact (funds_forStatement hi).behind rfl
  | functionWord => exact fundsBehind_named hi funds_functionName
  | localWord => exact (funds_localStatement hi).behind rfl

theorem funds_target : Funds words (target inner) := by
  rw [target_eq]
  refine (funds_head hi _).bind fun found => ?_
  cases found with
  | «variable» => exact .pure
  | other | closes | opens => exact .unexpected _

theorem funds_assignment : Funds words (assignment inner) :=
  (Funds.many (.afterComma (funds_target hi))).bind fun _ =>
    .move_ite (funds_expList hi) (funds_lack _ _) (attempt_accept _)

omit hi in
/-- The word that starts a statement pays for the header behind it. -/
theorem triple_opener (spare : Nat) :
    Triple (fun _ => Funded words spare) (Funded words spare) acceptOpener fun found =>
      Funded words (spare + found.elim 0 Opener.headers) := by
  refine triple_pre triple_move fun c past h => ?_
  cases hword : c.text?.bind Opener.ofText? with
  | none => simpa [hword] using h
  | some word =>
    obtain ⟨text, htext, hfind⟩ := Option.bind_eq_some_iff.mp hword
    have hspelt : word.text = text := by simpa using List.find?_some hfind
    have hsees : c.sees word.text = true := by simp [Cursor.sees, htext, hspelt]
    simpa [hword] using h.advance_sees hsees

theorem funds_statementOrCloser (closers : List Closer) :
    Funds words (statementOrCloser inner closers) := by
  intro spare
  refine triple_bind (triple_opener spare) fun found => ?_
  cases found with
  | some word =>
    exact triple_bind (fundsBehind_opened hi word spare) fun _ => triple_pure_keep
  | none =>
    refine triple_bind (fundsHead_head hi (.statement closers) spare) fun found => ?_
    cases found with
    | «variable» =>
      refine triple_pre ?_ fun _ _ h => h.1
      exact triple_bind (funds_assignment hi spare) fun _ => triple_pure_keep
    | other => exact triple_pre triple_pure_keep fun _ _ h => h.1
    | closes word => exact triple_pre triple_pure_keep fun _ _ h => h.1
    | opens word =>
      refine triple_bind (Q := fun _ => Funded words (spare + word.headers)) ?_ fun _ => ?_
      · exact triple_pre triple_move fun _ _ h => h.2 word rfl
      · exact triple_bind (fundsBehind_opened hi word spare) fun _ => triple_pure_keep

/-! ## Blocks -/

theorem funds_nextStatement [inner.Built] (closers : List Closer) :
    Funds words (nextStatement inner closers) := by
  rw [nextStatement_eq]
  have hsemicolon : Funds words (discard (accept ";")) := (Funds.move (attempt_accept _)).discard
  have hlast : Funds words (do discard (accept ";"); return .again true : Parse BlockTurn) :=
    hsemicolon.bind fun _ => .pure
  have hvalues : Funds words (returnValues inner closers) := .look_ite (funds_expList hi) .pure
  refine .move_ite hlast (.move_ite (hvalues.bind fun _ => hlast) ?_ (attempt_accept _))
    (attempt_accept _)
  refine (funds_statementOrCloser hi closers).bind fun found => ?_
  cases found with
  | some word => exact .pure
  | none => exact hsemicolon.bind fun _ => .pure

omit hi in
theorem funds_stop {event : Cursor → Event} {halt : Halt}
    (hheader : ∀ c, (event c).isHeader = false)
    (hparsed : ∀ c, (event c).isRedefinition = false) :
    Funds words (do record event; Parse.halt halt : Parse α) := fun spare =>
  triple_bind (Funds.record hheader hparsed spare) fun _ => triple_halt

omit hi in
theorem funds_endOfInput (closers : List Closer) : Funds words (endOfInput closers) := by
  cases closers with
  | nil => exact .pure
  | cons word closers => exact funds_stop (fun _ => rfl) fun _ => rfl

omit hi in
theorem funds_afterLast (closers : List Closer) : Funds words (afterLast closers) := by
  refine (Funds.record (fun _ => rfl) fun _ => rfl).bind fun _ spare =>
    triple_bind triple_closest fun found => ?_
  cases found with
  | some word => exact triple_bind (Funds.move attempt_advance spare) fun _ => triple_pure_keep
  | none => exact triple_pure_keep

theorem funds_blockTurn [inner.Built] (closers : List Closer) (ended : Bool) :
    Funds words (blockTurn inner closers ended) := by
  refine .look_ite (funds_endOfInput closers) ((Funds.move (attempt_closer closers)).bind ?_)
  intro found
  cases found with
  | some word => exact .pure
  | none => exact .ite (funds_afterLast closers) (funds_nextStatement hi closers) ended

omit hi

/-! ## Nesting levels and programs -/

theorem funds_nested (levels : Nat) : (nested levels).Funds words := by
  have hstop {α : Type} : Funds words (tooDeep : Parse α) :=
    funds_stop (fun _ => rfl) fun _ => rfl
  induction levels with
  | zero => exact ⟨hstop, fun _ => hstop⟩
  | succ levels ih =>
    exact ⟨funds_operandChain ih, fun closers => .loop (funds_blockTurn ih closers) false⟩

/-- A program has no more headers than words `function` and reports of misspellings of it, and
whether a function is declared again is not for the parse to say. -/
theorem program_headers (speller : Speller) (ts : List Token) :
    let es := (program speller (.ofList ts)).events
    es.countP Event.isHeader ≤ functionWords ts + es.countP Event.isFunctionTypo ∧
      ∀ e ∈ es, e.isRedefinition = false := by
  have hstart : Funded (functionWords ts) 0 (.ofList ts) [] :=
    ⟨by simp [Cursor.ofList], by simp⟩
  have hs := (funds_nested maxLevels).chunk [] 0 speller (.ofList ts) [] hstart
  have hend : ∃ rest, Funded (functionWords ts) 0 rest (program speller (.ofList ts)).events := by
    change Step.Meets _ _ _ (program speller (.ofList ts)) at hs
    generalize program speller (.ofList ts) = s at hs ⊢
    obtain ⟨outcome, rest, es⟩ := s
    cases outcome with
    | error halt => exact ⟨rest, hs⟩
    | ok closed => exact ⟨rest, hs⟩
  obtain ⟨rest, hfunded⟩ := hend
  have hpaid := hfunded.paid
  exact ⟨by omega, hfunded.parsed⟩

end LuaChecker.Grammar

import LuaChecker.Proofs.Parsing.Built
import LuaChecker.Proofs.Parsing.Findings
import LuaChecker.Proofs.Parsing.Recovery

/-!
# How the parse of a program ends

Two findings are fatal: that a block is not closed at the end of the input, and that the
nesting is too deep. Each of them halts the parse where it is recorded, and the halt goes
through every parse around it, so nothing is recorded after it. A parse that does not halt
has met the end of the input, or it has met something behind the last statement of the
outermost block, and leaves that unread.

* `Built.calm`: fatal findings are recorded only by a parse that halts, as its last event;
* `chunk_closes`: what a block yields, and how it comes to yield nothing;
* `program_ending`: the four ways in which the parse of a program ends;
* `fatal_findings_end`, `reads_all_or_stops`: the same of the diagnostics of a check.
-/

namespace LuaChecker

namespace Grammar

open Parse

/-! ## Fatal findings -/

def Cause.isFatal : Cause → Bool
  | .notClosed | .tooDeep => true
  | _ => false

def Event.isFatal : Event → Bool
  | .finding _ cause => cause.isFatal
  | _ => false

/-- No fatal finding is recorded so far. -/
def Calm : Assertion := fun _ past => ∀ e ∈ past, e.isFatal = false

/-- The finding that a parse has recorded where it halted, unless it is a signal or an
endless repetition that ended it. -/
def Halt.finding? (rest : Cursor) : Halt → Option Event
  | .endOfInput => some (.finding none .notClosed)
  | .tooDeep => some (.finding rest.line? .tooDeep)
  | .ellipsis _ | .misspeltCloser _ | .endless => none

/-- How it is where a parse halted: the halt is recorded last, and nothing fatal before it. -/
def Halted : HaltAssertion := fun halt rest past =>
  ∀ e ∈ halt.finding? rest, (halt = .endOfInput → rest.tokens = []) ∧
    ∃ before, Calm rest before ∧ past = before ++ [e]

variable {α β : Type} {closers : List Closer} {inner : Nested}

theorem Calm.append {c d : Cursor} {past : List Event} {e : Event} (h : Calm c past)
    (he : e.isFatal = false) : Calm d (past ++ [e]) := by
  intro e' he'
  rcases List.mem_append.mp he' with he' | he'
  · exact h e' he'
  · rw [List.mem_singleton.mp he']
    exact he

theorem calm_record {event : Cursor → Event} (h : ∀ c, (event c).isFatal = false) :
    Triple Halted Calm (record event) fun _ => Calm :=
  triple_pre triple_record fun c _ hpast => hpast.append (h c)

theorem calm_move {f : Cursor → α × Cursor} :
    Triple Halted Calm (Parse.move f) fun _ => Calm :=
  triple_pre triple_move fun _ _ h => h

theorem calm_lackNoting {wanted : String} {note : Option Nat → String → Event}
    (h : ∀ line found, (note line found).isFatal = false) :
    Triple Halted Calm (lackNoting wanted note) fun _ => Calm := by
  refine triple_bind triple_look_keep fun here => ?_
  refine triple_bind triple_resembles fun alike => ?_
  have hnote : Triple Halted Calm (record fun _ => note here.line? here.describe)
      fun _ => Calm := calm_record fun _ => h _ _
  cases alike with
  | true => exact triple_bind calm_move fun _ => hnote
  | false => exact hnote

theorem calm_misspeltHead (closers : List Closer) :
    Triple Halted Calm (misspeltHead closers) fun _ => Calm := by
  refine triple_bind triple_closest fun found => ?_
  cases found with
  | some word =>
    refine triple_bind (calm_record fun _ => rfl) fun _ => ?_
    exact triple_bind calm_move fun _ => triple_pure_keep
  | none =>
    refine triple_bind triple_closest fun found => ?_
    cases found with
    | some word =>
      refine triple_bind (calm_record fun _ => rfl) fun _ => ?_
      exact triple_bind calm_move fun _ => triple_pure_keep
    | none =>
      refine triple_bind calm_move fun _ => ?_
      exact triple_bind (calm_record fun _ => rfl) fun _ => triple_pure_keep

theorem calm_afterLast (closers : List Closer) :
    Triple Halted Calm (afterLast closers) fun _ => Calm := by
  refine triple_bind (calm_record fun _ => rfl) fun _ => ?_
  refine triple_bind triple_closest fun found => ?_
  cases found with
  | some word => exact triple_bind calm_move fun _ => triple_pure_keep
  | none => exact triple_pure_keep

/-- A parse that records why it halts, and halts. -/
theorem calm_stop {halt : Halt} {P : Assertion} {Q : α → Assertion}
    {event : Cursor → Event} (hevent : ∀ c, halt.finding? c = some (event c))
    (hcalm : ∀ c past, P c past → Calm c past)
    (hend : ∀ c past, P c past → halt = .endOfInput → c.tokens = []) :
    Triple Halted P (do record event; Parse.halt halt : Parse α) Q := by
  refine triple_bind (Q := fun _ => Halted halt) ?_ fun _ => triple_halt
  refine triple_pre triple_record fun c past h e he => ?_
  cases (hevent c).symm.trans he
  exact ⟨hend c past h, past, hcalm c past h, rfl⟩

theorem calm_endOfInput (closers : List Closer) :
    Triple Halted (fun c past => Calm c past ∧ c.atEnd = true) (endOfInput closers)
      fun _ => Calm := by
  cases closers with
  | nil => exact triple_pre triple_pure_keep fun _ _ h => h.1
  | cons word closers =>
    refine calm_stop (fun _ => rfl) (fun _ _ h => h.1) fun c _ h _ => ?_
    simpa [Cursor.atEnd] using h.2

theorem calm_tooDeep : Triple Halted Calm (tooDeep : Parse α) fun _ => Calm :=
  calm_stop (fun _ => rfl) (fun _ _ h => h) fun _ _ _ h => by cases h

/-- A parse that is built of the small ones records a fatal finding only where it halts. -/
theorem Built.calm {p : Parse α} (h : Built p) : Triple Halted Calm p fun _ => Calm := by
  induction h with
  | pure => exact triple_pure_keep
  | bind _ _ ihp ihf => exact triple_bind ihp ihf
  | loop _ s ih =>
    refine triple_loop_of_endless (I := fun _ => Calm) (fun _ _ _ _ _ h => nomatch h)
      (fun s => triple_post (ih s) fun turn _ _ h => ?_) s
    cases turn with
    | again => exact h
    | done => exact h
  | look => exact triple_look_keep
  | move => exact calm_move
  | unexpected | anonymous | parameters => exact calm_record fun _ => rfl
  | named _ _ _ ihreader ihbody =>
    exact triple_bind ihreader fun _ => triple_bind (calm_record fun _ => rfl) fun _ => ihbody
  | lack | lackInHeader => exact calm_lackNoting fun _ _ => rfl
  | misspelt closers => exact calm_misspeltHead closers
  | afterLast closers => exact calm_afterLast closers
  | unlessAtEnd closers _ ih =>
    refine triple_bind triple_look_eq fun atEnd => triple_ite (fun hatEnd => ?_) fun _ => ?_
    · exact triple_pre (calm_endOfInput closers) fun _ _ h => ⟨h.1, h.2.trans hatEnd⟩
    · exact triple_pre ih fun _ _ h => h.1
  | tooDeep => exact calm_tooDeep

/-! ## What a block yields -/

theorem statementOrCloser_closes (closers : List Closer) :
    Triple Anyhow Anywhere (statementOrCloser inner closers) fun closed _ _ =>
      ∀ word ∈ closed, word ∈ closers := by
  have hnone {P : Assertion} {p : Parse Unit} : Triple Anyhow P (do p; return none)
      fun (closed : Option Closer) _ _ => ∀ word ∈ closed, word ∈ closers :=
    triple_bind triple_anyhow fun _ => triple_pre triple_pure fun _ _ _ => by simp
  refine triple_bind triple_anyhow fun found => ?_
  cases found with
  | some word => exact hnone
  | none =>
    refine triple_bind (head_closes (.statement closers)) fun found => ?_
    cases found with
    | «variable» => exact hnone
    | other => exact triple_pre triple_pure fun _ _ _ => by simp
    | closes word =>
      refine triple_pre triple_pure fun _ _ h other hother => ?_
      cases hother
      exact h
    | opens word => exact triple_bind triple_anyhow fun _ => hnone

/-- How it is where a block is closed. If no word closes it, the input has ended, or the
last event says that something follows the last statement. -/
def ClosedAs (closers : List Closer) : Option Closer → Assertion
  | some word => fun _ _ => word ∈ closers
  | none => fun c past => (closers = [] ∧ c.tokens = []) ∨
      ∃ t ts before, c.tokens = t :: ts ∧ past = before ++ [.finding (some t.line) .unreachable]

theorem nextStatement_closes [inner.Built] (closers : List Closer) :
    Triple Anyhow Anywhere (nextStatement inner closers)
      (afterTurn (fun _ => Anywhere) (ClosedAs closers)) := by
  rw [nextStatement_eq]
  have hagain {p : Parse Unit} {ended : Bool} : Triple Anyhow Anywhere
      (do p; return .again ended : Parse BlockTurn)
      (afterTurn (fun _ => Anywhere) (ClosedAs closers)) :=
    triple_bind triple_anyhow fun _ => triple_pre triple_pure fun _ _ _ => trivial
  refine triple_bind triple_anyhow fun _ => triple_ite (fun _ => hagain) fun _ => ?_
  refine triple_bind triple_anyhow fun _ => triple_ite (fun _ => ?_) fun _ => ?_
  · exact triple_bind triple_anyhow fun _ => hagain
  refine triple_bind (statementOrCloser_closes closers) fun closed => ?_
  cases closed with
  | some word => exact triple_pre triple_pure fun _ _ h => h word rfl
  | none => exact triple_pre hagain fun _ _ _ => trivial

theorem afterLast_closes (closers : List Closer) :
    Triple Anyhow (fun c _ => c.atEnd = false) (afterLast closers)
      (afterTurn (fun _ => Anywhere) (ClosedAs closers)) := by
  refine triple_bind (Q := fun _ => ClosedAs closers none) ?_ fun _ => ?_
  · refine triple_pre triple_record fun c past h => .inr ?_
    cases htokens : c.tokens with
    | nil => simp [Cursor.atEnd, htokens] at h
    | cons t ts => exact ⟨t, ts, past, rfl, by simp [Cursor.line?, Cursor.current?, htokens]⟩
  refine triple_bind triple_closest_mem fun found => ?_
  cases found with
  | some word =>
    refine triple_fact fun hmem => triple_bind triple_anyhow fun _ => ?_
    exact triple_pre triple_pure fun _ _ _ => hmem word rfl
  | none => exact triple_pre triple_pure fun _ _ h => h.1

theorem blockTurn_closes [inner.Built] (closers : List Closer) (ended : Bool) :
    Triple Anyhow Anywhere (blockTurn inner closers ended)
      (afterTurn (fun _ => Anywhere) (ClosedAs closers)) := by
  refine triple_bind triple_look_eq fun atEnd => triple_ite (fun hatEnd => ?_) fun hatEnd => ?_
  · cases closers with
    | nil =>
      refine triple_pre triple_pure fun c past h => .inl ⟨rfl, ?_⟩
      simpa [Cursor.atEnd] using h.2.trans hatEnd
    | cons word closers =>
      exact triple_bind triple_anyhow fun _ => triple_pre triple_halt fun _ _ _ => trivial
  subst hatEnd
  refine triple_bind (Q := fun found c _ => (∀ word ∈ found, word ∈ closers) ∧
    (found = none → c.atEnd = false)) ?_ fun found => ?_
  · refine triple_pre triple_move fun c past h => ?_
    cases hfind : closers.find? fun word => c.sees word.text with
    | some word =>
      refine ⟨fun other hother => ?_, fun hnone => ?_⟩
      · cases hother
        exact List.mem_of_find?_eq_some hfind
      · cases hnone
    | none => exact ⟨fun other hother => (by cases hother), fun _ => h.2⟩
  cases found with
  | some word => exact triple_pre triple_pure fun _ _ h => h.1 word rfl
  | none =>
    refine triple_ite (fun _ => ?_) fun _ => ?_
    · exact triple_pre (afterLast_closes closers) fun _ _ h => h.2 rfl
    · exact triple_pre (nextStatement_closes closers) fun _ _ _ => trivial

theorem block_closes [inner.Built] (closers : List Closer) :
    Triple Anyhow Anywhere (block inner closers) (ClosedAs closers) :=
  triple_loop_of_endless (I := fun _ => Anywhere) (fun _ _ _ _ => trivial)
    (blockTurn_closes closers) false

theorem chunk_closes (levels : Nat) (closers : List Closer) :
    Triple Anyhow Anywhere ((nested levels).chunk closers) (ClosedAs closers) := by
  cases levels with
  | zero => exact triple_bind triple_anyhow fun _ => triple_pre triple_halt fun _ _ _ => trivial
  | succ levels => exact block_closes closers

/-! ## Programs -/

/-- How the parse of a program may end. -/
inductive Ends : Step (Option Closer) → Prop
  /-- All tokens are read. -/
  | all {rest es} (hrest : rest.tokens = []) (hes : Calm rest es) : Ends ⟨.ok none, rest, es⟩
  /-- The current token stands behind the last statement of the program. -/
  | unreachable {rest t ts es} (hrest : rest.tokens = t :: ts) (hes : Calm rest es) :
      Ends ⟨.ok none, rest, es ++ [.finding (some t.line) .unreachable]⟩
  | notClosed {rest es} (hrest : rest.tokens = []) (hes : Calm rest es) :
      Ends ⟨.error .endOfInput, rest, es ++ [.finding none .notClosed]⟩
  | tooDeep {rest es} (hes : Calm rest es) :
      Ends ⟨.error .tooDeep, rest, es ++ [.finding rest.line? .tooDeep]⟩

theorem program_ending (speller : Speller) (ts : List Token) :
    Ends (program speller (.ofList ts)) := by
  have hcalm := built_program.calm speller (.ofList ts) [] (by simp [Calm])
  have hclosed := chunk_closes maxLevels [] speller (.ofList ts) [] trivial
  have hrecorded := (program_ends speller ts).1
  change (program speller (.ofList ts)).Meets Anyhow (ClosedAs []) [] at hclosed
  generalize program speller (.ofList ts) = s at hcalm hclosed hrecorded
  obtain ⟨outcome, rest, es⟩ := s
  simp only [Step.Meets, List.nil_append] at hcalm hclosed
  cases outcome with
  | error halt =>
    cases halt with
    | endOfInput =>
      obtain ⟨hrest, before, hbefore, rfl⟩ := hcalm _ rfl
      exact .notClosed (hrest rfl) hbefore
    | tooDeep =>
      obtain ⟨-, before, hbefore, rfl⟩ := hcalm _ rfl
      exact .tooDeep hbefore
    | ellipsis | misspeltCloser | endless => exact (hrecorded _ rfl).elim
  | ok closed =>
    cases closed with
    | some word => cases hclosed
    | none =>
      rcases hclosed with ⟨-, hrest⟩ | ⟨t, us, before, hrest, rfl⟩
      · exact .all hrest hcalm
      · exact .unreachable hrest fun e he => hcalm e (List.mem_append_left _ he)

end Grammar

/-! ## Diagnostics -/

/-- The diagnostic says that a block is not closed, or that the nesting is too deep. -/
def Diagnostic.isFatal (d : Diagnostic) : Bool :=
  d.message = "Scope not closed" || d.message = "Chunk has too many syntax levels"

namespace Grammar

open Parse

variable {α : Type}

/-- The message of a fatal cause is that of no other cause. -/
theorem isFatal_message (line : Option Nat) (cause : Cause) :
    (⟨line, cause.message⟩ : Diagnostic).isFatal = cause.isFatal := by
  cases cause with
  | missing | unexpected | typo | redefined =>
    simp [Diagnostic.isFatal, Cause.isFatal, Cause.message, ← String.toList_inj]
  | unreachable | notClosed | tooDeep => rfl

/-- A fatal finding comes from a fatal event. -/
theorem isFatal_of_adds {l : Ledger} {e : Event} {line : Option Nat} {cause : Cause}
    (h : l.adds? e = some (line, cause)) : cause.isFatal = e.isFatal := by
  rcases Ledger.adds_cases h with rfl | ⟨name, rfl, rfl⟩ | ⟨found, wanted, rfl, rfl⟩
  · rfl
  · rfl
  · rfl

theorem diagnostics_calm {es : List Event} (h : ∀ e ∈ es, e.isFatal = false) :
    ∀ d ∈ (Ledger.ofEvents es).diagnostics, d.isFatal = false := by
  intro d hd
  obtain ⟨past, e, later, ⟨line, cause⟩, rfl, hadds, rfl⟩ := Ledger.mem_diagnostics_iff.mp hd
  rw [Ledger.diagnosticOf, isFatal_message, isFatal_of_adds hadds]
  exact h e (by simp)

theorem diagnostics_concat (es : List Event) (line : Option Nat) (cause : Cause) :
    (Ledger.ofEvents (es ++ [.finding line cause])).diagnostics =
      (Ledger.ofEvents es).diagnostics ++ [⟨line, cause.message⟩] :=
  Ledger.diagnostics_concat_event es (.finding line cause)

/-- The diagnostic of a parse that halted. -/
def Step.fatal? (s : Step α) : Option Diagnostic :=
  match s.outcome with
  | .ok _ => none
  | .error .endOfInput => some ⟨none, "Scope not closed"⟩
  | .error _ => some ⟨s.rest.line?, "Chunk has too many syntax levels"⟩

variable {s : Step (Option Closer)} {d : Diagnostic}

theorem Ends.diagnostics (h : Ends s) :
    ∃ calm, (Ledger.ofEvents s.events).diagnostics = calm ++ s.fatal?.toList ∧
      ∀ d ∈ calm, d.isFatal = false := by
  cases h with
  | all hrest hes => exact ⟨_, (List.append_nil _).symm, diagnostics_calm hes⟩
  | @unreachable rest _ _ _ hrest hes =>
    exact ⟨_, (List.append_nil _).symm, diagnostics_calm (hes.append (d := rest) rfl)⟩
  | notClosed hrest hes => exact ⟨_, diagnostics_concat _ _ _, diagnostics_calm hes⟩
  | tooDeep hes => exact ⟨_, diagnostics_concat _ _ _, diagnostics_calm hes⟩

theorem Ends.fatal?_of_mem (h : Ends s) (hd : d ∈ (Ledger.ofEvents s.events).diagnostics)
    (hfatal : d.isFatal = true) : s.fatal? = some d := by
  obtain ⟨calm, hds, hcalm⟩ := h.diagnostics
  rw [hds, List.mem_append, Option.mem_toList] at hd
  rcases hd with hd | hd
  · rw [hcalm d hd] at hfatal
    cases hfatal
  · exact hd

theorem Ends.getLast?_of_mem (h : Ends s) (hd : d ∈ (Ledger.ofEvents s.events).diagnostics)
    (hfatal : d.isFatal = true) : (Ledger.ofEvents s.events).diagnostics.getLast? = some d := by
  obtain ⟨calm, hds, -⟩ := h.diagnostics
  rw [hds, h.fatal?_of_mem hd hfatal]
  simp

theorem Ends.countP_isFatal_le (h : Ends s) :
    (Ledger.ofEvents s.events).diagnostics.countP Diagnostic.isFatal ≤ 1 := by
  obtain ⟨calm, hds, hcalm⟩ := h.diagnostics
  have hnone : calm.countP Diagnostic.isFatal = 0 :=
    List.countP_eq_zero.mpr fun d hd => by simp [hcalm d hd]
  have hone : s.fatal?.toList.countP Diagnostic.isFatal ≤ s.fatal?.toList.length :=
    List.countP_le_length
  have hlength : s.fatal?.toList.length ≤ 1 := by cases s.fatal? <;> simp
  rw [hds, List.countP_append, hnone]
  omega

/-- That a block is not closed has no line, since all tokens are read. -/
theorem Ends.of_notClosed (h : Ends s) (hd : d ∈ (Ledger.ofEvents s.events).diagnostics)
    (hmessage : d.message = "Scope not closed") : d.line = none ∧ s.rest.tokens = [] := by
  have hfatal := h.fatal?_of_mem hd (by simp [Diagnostic.isFatal, hmessage])
  cases h with
  | all | unreachable => cases hfatal
  | notClosed hrest =>
    cases hfatal
    exact ⟨rfl, hrest⟩
  | tooDeep =>
    cases hfatal
    simp at hmessage

theorem Ends.outcome_eq (h : Ends s) :
    s.outcome = .ok none ∨ s.outcome = .error .endOfInput ∨ s.outcome = .error .tooDeep := by
  cases h with
  | all | unreachable => exact .inl rfl
  | notClosed => exact .inr (.inl rfl)
  | tooDeep => exact .inr (.inr rfl)

theorem mem_closers_of_chunk {levels : Nat} {closers : List Closer} {speller : Speller}
    {c : Cursor} {closed : Option Closer}
    (h : ((nested levels).chunk closers speller c).outcome = .ok closed) :
    closed = none ∨ ∃ word ∈ closers, closed = some word := by
  obtain ⟨rest, past, hclosed⟩ := exists_of_outcome (chunk_closes levels closers) h
  cases closed with
  | none => exact .inl rfl
  | some word => exact .inr ⟨word, hclosed, rfl⟩

/-- Of the signals, a statement raises only that a word is misspelt which closes its block. -/
theorem statement_halts {levels : Nat} {closers : List Closer} {speller : Speller} {c : Cursor}
    {halt : Halt} (h : (statement (nested levels) closers speller c).outcome = .error halt) :
    (∃ word ∈ closers, halt = .misspeltCloser word) ∨ halt.isSignal = false := by
  rw [statement_eq, bind_eq] at h
  have hquiet (halt : Halt) :
      (statementOrCloser (nested levels) closers speller c).outcome = .error halt →
        halt.isSignal = false :=
    (built_statementOrCloser (built_nested levels) closers).quiet.isSignal_eq_false
  have hclosed : Triple Anyhow Anywhere (statementOrCloser (nested levels) closers)
      fun closed _ _ => ∀ word ∈ closed, word ∈ closers := statementOrCloser_closes closers
  have hcloses := hclosed speller c [] trivial
  generalize statementOrCloser (nested levels) closers speller c = s at h hquiet hcloses
  obtain ⟨outcome, rest, events⟩ := s
  cases outcome with
  | error halt' =>
    cases h
    exact .inr (hquiet halt rfl)
  | ok found =>
    cases found with
    | none => cases h
    | some word =>
      cases h
      exact .inl ⟨word, hcloses word rfl, rfl⟩

/-- **Fatal endings.** Of the two fatal messages at most one is given, once and at the end;
if it is that a block is not closed, it has no line and all tokens are read. The parse of a
program yields no closing word, or it halts at the end of the input or at the limit of the
nesting. A block yields nothing or one of its own closing words. No signal comes out of a
block or an expression: the statements of a block raise only that one of its own closing words
is misspelt, and the block catches that. -/
theorem fatal_findings_end (threshold : Float) (ts : List Token) :
    let s := program (.ofThreshold threshold) (.ofList ts)
    let ds := (checkTokens threshold ts).diagnostics
    ds.countP Diagnostic.isFatal ≤ 1 ∧
      (∀ d ∈ ds, d.isFatal = true → ds.getLast? = some d) ∧
      (∀ d ∈ ds, d.message = "Scope not closed" → d.line = none ∧ s.rest.tokens = []) ∧
      (s.outcome = .ok none ∨ s.outcome = .error .endOfInput ∨ s.outcome = .error .tooDeep) ∧
      (∀ levels closers speller c closed,
        ((nested levels).chunk closers speller c).outcome = .ok closed →
          closed = none ∨ ∃ word ∈ closers, closed = some word) ∧
      (∀ levels closers speller c halt,
        ((nested levels).chunk closers speller c).outcome = .error halt →
          halt.isSignal = false) ∧
      (∀ levels speller c halt,
        ((nested levels).exp speller c).outcome = .error halt → halt.isSignal = false) ∧
      ∀ levels closers speller c halt,
        (statement (nested levels) closers speller c).outcome = .error halt →
          (∃ word ∈ closers, halt = .misspeltCloser word) ∨ halt.isSignal = false := by
  intro s ds
  have hends : Ends s := program_ending _ ts
  have hevents : ds = (Ledger.ofEvents s.events).diagnostics := diagnostics_checkTokens _ ts
  clear_value s ds
  subst hevents
  refine ⟨hends.countP_isFatal_le, ?_, ?_, hends.outcome_eq, ?_, ?_, ?_, ?_⟩
  · exact fun d hd hfatal => hends.getLast?_of_mem hd hfatal
  · exact fun d hd hmessage => hends.of_notClosed hd hmessage
  · exact fun levels closers speller c closed => mem_closers_of_chunk
  · exact fun levels closers speller c halt =>
      ((built_nested levels).chunk closers).quiet.isSignal_eq_false
  · exact fun levels speller c halt => (built_nested levels).exp.quiet.isSignal_eq_false
  · exact fun levels closers speller c halt => statement_halts

/-- **What is left unread.** If the nesting is not too deep, the parse of a program reads
all tokens, or it ends at a token behind the last statement of the outermost block, and the
last diagnostic is about that token. -/
theorem reads_all_or_stops (threshold : Float) (ts : List Token) :
    let s := program (.ofThreshold threshold) (.ofList ts)
    let ds := (checkTokens threshold ts).diagnostics
    (∀ d ∈ ds, d.message ≠ "Chunk has too many syntax levels") →
      s.rest.tokens = [] ∨ ∃ t more, s.rest.tokens = t :: more ∧
        ds.getLast? = some ⟨some t.line, "Scope not closed after 'break' or 'return'"⟩ := by
  intro s ds hdeep
  have hends : Ends s := program_ending _ ts
  have hds : ds = (Ledger.ofEvents s.events).diagnostics := diagnostics_checkTokens _ ts
  clear_value s ds
  cases hends with
  | all hrest | notClosed hrest => exact .inl hrest
  | @unreachable _ t more _ hrest =>
    refine .inr ⟨t, more, hrest, ?_⟩
    rw [hds, diagnostics_concat, List.getLast?_concat]
    rfl
  | @tooDeep rest es _ =>
    have hmem : (⟨rest.line?, Cause.tooDeep.message⟩ : Diagnostic) ∈ ds := by
      rw [hds, diagnostics_concat]
      exact List.mem_concat_self
    exact absurd rfl (hdeep _ hmem)

/-- `break function f() end` -/
def breakTokens : List Token :=
  [⟨1, 0, 5, .keyword, "break"⟩, ⟨1, 6, 8, .keyword, "function"⟩, ⟨1, 15, 1, .name, "f"⟩,
    ⟨1, 16, 1, .symbol, "("⟩, ⟨1, 17, 1, .symbol, ")"⟩, ⟨1, 19, 3, .keyword, "end"⟩]

theorem program_breakTokens (threshold : Float) :
    program (.ofThreshold threshold) (.ofList breakTokens) =
      ⟨.ok none, .ofList (breakTokens.drop 1), [.finding (some 1) .unreachable]⟩ := by
  have hbreak : blockTurn (nested 199) [] false (.ofThreshold threshold) (.ofList breakTokens) =
      ⟨.ok (.again true), .ofList (breakTokens.drop 1), []⟩ := rfl
  have hfunction : blockTurn (nested 199) [] true (.ofThreshold threshold)
      (.ofList (breakTokens.drop 1)) =
      ⟨.ok (.done none), .ofList (breakTokens.drop 1), [.finding (some 1) .unreachable]⟩ := rfl
  have hloop : loop (blockTurn (nested 199) []) true (.ofThreshold threshold)
      (.ofList (breakTokens.drop 1)) =
      ⟨.ok none, .ofList (breakTokens.drop 1), [.finding (some 1) .unreachable]⟩ := by
    rw [loop_eq, hfunction]
  change loop (blockTurn (nested 199) []) false (.ofThreshold threshold) (.ofList breakTokens) = _
  rw [loop_eq, hbreak]
  simp only [hloop]
  rfl

theorem diagnostics_breakTokens (threshold : Float) :
    (checkTokens threshold breakTokens).diagnostics = [⟨some 1, Cause.unreachable.message⟩] := by
  simp only [checkTokens, parse_eq, program_breakTokens]
  rfl

/-- A function behind the last statement of a program is neither read nor declared. -/
theorem leaves_function_unread :
    (∀ d ∈ (checkTokens 0.65 breakTokens).diagnostics,
      d.message ≠ "Chunk has too many syntax levels") ∧
      (program (.ofThreshold 0.65) (.ofList breakTokens)).rest.tokens ≠ [] ∧
      (checkTokens 0.65 breakTokens).functions = .empty := by
  refine ⟨?_, ?_, ?_⟩
  · rw [diagnostics_breakTokens]
    decide
  · rw [program_breakTokens]
    decide
  · simp only [checkTokens, parse_eq, program_breakTokens]
    rfl

theorem reads_all_or_stops_breakTokens :
    (∀ d ∈ (checkTokens 0.65 breakTokens).diagnostics,
      d.message ≠ "Chunk has too many syntax levels") ∧
      ((program (.ofThreshold 0.65) (.ofList breakTokens)).rest.tokens = [] ∨
        ∃ t more, (program (.ofThreshold 0.65) (.ofList breakTokens)).rest.tokens = t :: more ∧
          (checkTokens 0.65 breakTokens).diagnostics.getLast? =
            some ⟨some t.line, "Scope not closed after 'break' or 'return'"⟩) := by
  have hdeep : ∀ d ∈ (checkTokens 0.65 breakTokens).diagnostics,
      d.message ≠ "Chunk has too many syntax levels" := by
    rw [diagnostics_breakTokens]
    decide
  exact ⟨hdeep, reads_all_or_stops 0.65 breakTokens hdeep⟩

end Grammar

end LuaChecker

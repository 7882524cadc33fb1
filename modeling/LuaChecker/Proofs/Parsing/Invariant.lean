import LuaChecker.Proofs.Parsing.Built
import LuaChecker.Proofs.Parsing.Triple

/-!
# Invariants of the parse

An assertion about the place in the tokens and the events so far holds wherever a parse leads
to, if the steps of the parse keep it: reading a token, respelling one as a word that starts a
statement, and recording an event about the current token. All parses are built of such
steps.

* `Kept`: the steps keep an assertion;
* `Spelled.naming`: what holds of the names of functions;
* `Built.keeps`: then every parse does, whether it yields a value or halts.
-/

namespace LuaChecker.Grammar

open Parse

variable {α β : Type} {I : Assertion}

/-- A cause that quotes what was found, and nothing else but fixed texts of the language. -/
inductive Cause.About (found : String) : Cause → Prop
  | missing {wanted : String} {place : Place} (hwanted : wanted ∈ fixedTexts)
      (hplace : place.IsFixed) : About found (.missing found wanted place)
  | unexpected (need : Need) : About found (.unexpected found need)
  | typo {meant : String} (hmeant : meant ∈ fixedTexts) : About found (.typo found meant)
  | unreachable : About found .unreachable
  | notClosed : About found .notClosed
  | tooDeep : About found .tooDeep

/-- An event about the current token, other than the header of a function with a name. -/
inductive RecordedAt (c : Cursor) : Event → Prop
  | finding {cause : Cause} (h : cause.About c.describe) : RecordedAt c (.finding c.line? cause)
  | anonymous : RecordedAt c (.header c.line? "")
  | headerLacks {wanted : String} (hwanted : wanted ∈ fixedTexts) :
      RecordedAt c (.headerLacks c.line? c.describe wanted)
  | parameters (names : List String) (variadic : Bool) :
      RecordedAt c (.parameters names variadic)

/-- The parse keeps the assertion, whether it yields a value or halts. -/
abbrev Keeps (I : Assertion) (p : Parse α) : Prop :=
  Triple (fun _ => I) I p fun _ => I

/-- The steps of the parse keep the assertion. -/
structure Kept (I : Assertion) : Prop where
  advance : ∀ {c past}, I c past → I c.advance past
  respell : ∀ {c past} (word : Opener), I c past → I (c.respell word.text .keyword) past
  record : ∀ {c past e}, RecordedAt c e → I c past → I c (past ++ [e])
  /-- The name that was read may be recorded. -/
  named : ∀ {reader}, Naming reader → Keeps I reader →
    Triple (fun _ => I) I reader fun name c past => I c (past ++ [.header c.line? name])

theorem keeps_move (hadvance : ∀ {c past}, I c past → I c.advance past) {f : Cursor → α × Cursor}
    (hf : Attempt f) : Keeps I (Parse.move f) := by
  refine triple_pre triple_move fun c past h => ?_
  rcases hf.rest c with hrest | hrest
  · rw [hrest]
    exact h
  · rw [hrest]
    exact hadvance h

/-! ## Names -/

/-- A property that names of functions have if the tokens have it that they are put together
from. -/
structure Spelled (I : Assertion) (P : String → Prop) : Prop where
  empty : P ""
  token : ∀ {c past}, I c past → ∀ t ∈ c.tokens, P t.text
  field : ∀ {path part}, P path → P part → P (path ++ "." ++ part)
  method : ∀ {path part}, P path → P part → P (path ++ ":" ++ part)

section

variable {P : String → Prop} (hadvance : ∀ {c past}, I c past → I c.advance past)
  (hrecord : ∀ {c past e}, RecordedAt c e → I c past → I c (past ++ [e]))
include hadvance hrecord

/-- A name is the text of the current token, whether it is a name or not. -/
theorem Spelled.name (hP : Spelled I P) :
    Triple (fun _ => I) I name fun text c past => I c past ∧ P text := by
  refine triple_bind (Q := fun text c past => I c past ∧ P text) ?_
    fun text => triple_fact fun htext => ?_
  · refine triple_pre triple_look fun c past h => ⟨h, ?_⟩
    cases htext : c.text? with
    | none => exact hP.empty
    | some text =>
      obtain ⟨t, ht, rfl⟩ := Option.map_eq_some_iff.mp htext
      exact hP.token h t (List.mem_of_head? ht)
  have hyield : Triple (fun _ => I) I (pure text) fun text c past => I c past ∧ P text :=
    triple_pre triple_pure fun _ _ h => ⟨h, htext⟩
  refine triple_bind (keeps_move hadvance (attempt_acceptKind .name)) fun found => ?_
  cases found with
  | true => exact hyield
  | false =>
    exact triple_bind (triple_pre triple_record fun c past h =>
      hrecord (.finding (.unexpected .name)) h) fun _ => hyield

theorem Spelled.functionName (hP : Spelled I P) :
    Triple (fun _ => I) I functionName fun text c past => I c past ∧ P text := by
  have hname := hP.name hadvance hrecord
  refine triple_bind hname fun first => ?_
  refine triple_bind (Q := fun path c past => I c past ∧ P path) ?_
    fun path => triple_fact fun hpath => ?_
  · refine triple_loop_of_endless (I := fun path c past => I c past ∧ P path)
      (fun _ _ _ h => h.1) (fun path => triple_fact fun hpath => ?_) first
    refine triple_bind (keeps_move hadvance (attempt_accept ".")) fun found => ?_
    cases found with
    | true =>
      refine triple_bind hname fun part => triple_pre triple_pure fun _ _ h => ?_
      exact ⟨h.1, hP.field hpath h.2⟩
    | false => exact triple_pre triple_pure fun _ _ h => ⟨h, hpath⟩
  · refine triple_bind (keeps_move hadvance (attempt_accept ":")) fun found => ?_
    cases found with
    | true =>
      refine triple_bind hname fun method => triple_pre triple_pure fun _ _ h => ?_
      exact ⟨h.1, hP.method hpath h.2⟩
    | false => exact triple_pre triple_pure fun _ _ h => ⟨h, hpath⟩

/-- The name that is read has the property. -/
theorem Spelled.naming (hP : Spelled I P) {reader : Parse String} (h : Naming reader) :
    Triple (fun _ => I) I reader fun text c past => I c past ∧ P text := by
  cases h with
  | name => exact hP.name hadvance hrecord
  | functionName => exact hP.functionName hadvance hrecord

end

/-! ## Every parse -/

theorem Closer.text_mem (word : Closer) : word.text ∈ fixedTexts := by
  cases word <;> decide

theorem Opener.text_mem (word : Opener) : word.text ∈ fixedTexts := by
  cases word <;> decide

variable (hI : Kept I)
include hI

theorem keeps_record {event : Cursor → Event} (h : ∀ c, RecordedAt c (event c)) :
    Keeps I (record event) :=
  triple_pre triple_record fun c _ hc => hI.record (h c) hc

/-- What is not there is recorded as if before its misspelling is read. -/
theorem keeps_lackNoting {wanted : String} {note : Option Nat → String → Event}
    (hnote : ∀ c : Cursor, RecordedAt c (note c.line? c.describe)) :
    Keeps I (lackNoting wanted note) := by
  have hrecord (here : Cursor) : Triple (fun _ => I)
      (fun c past => I c (past ++ [note here.line? here.describe]))
      (record fun _ => note here.line? here.describe) fun _ => I :=
    triple_pre triple_record fun _ _ h => h
  refine triple_bind (triple_look_eq (f := id)) fun here => ?_
  refine triple_bind triple_resembles fun alike => ?_
  cases alike with
  | true =>
    refine triple_bind (triple_pre triple_move fun c past h => ?_) fun _ => hrecord here
    obtain ⟨hc, rfl⟩ := h
    exact hI.advance (hI.record (hnote c) hc)
  | false =>
    refine triple_pre (hrecord here) fun c past h => ?_
    obtain ⟨hc, rfl⟩ := h
    exact hI.record (hnote c) hc

theorem keeps_misspeltHead (closers : List Closer) : Keeps I (misspeltHead closers) := by
  have hadvance : Keeps I advance := keeps_move hI.advance attempt_advance
  have hfinding {cause : Cursor → Cause} (h : ∀ c : Cursor, (cause c).About c.describe) :
      Keeps I (record fun c => .finding c.line? (cause c)) :=
    keeps_record hI fun c => .finding (h c)
  have hrespell (word : Opener) : Keeps I (Parse.respell word.text .keyword) :=
    triple_pre triple_move fun _ _ h => hI.respell word h
  refine triple_bind triple_closest fun found => ?_
  cases found with
  | some word =>
    have htypo (c : Cursor) : Cause.About c.describe (.typo c.describe word.text) :=
      .typo word.text_mem
    exact triple_bind (hfinding htypo) fun _ => triple_bind hadvance fun _ => triple_pure_keep
  | none =>
    refine triple_bind triple_closest fun found => ?_
    cases found with
    | some word =>
      have htypo (c : Cursor) : Cause.About c.describe (.typo c.describe word.text) :=
        .typo word.text_mem
      exact triple_bind (hfinding htypo) fun _ =>
        triple_bind (hrespell word) fun _ => triple_pure_keep
    | none =>
      exact triple_bind hadvance fun _ =>
        triple_bind (hfinding fun _ => .unexpected .suffix) fun _ => triple_pure_keep

theorem keeps_afterLast (closers : List Closer) : Keeps I (afterLast closers) := by
  refine triple_bind (keeps_record hI fun _ => .finding .unreachable) fun _ => ?_
  refine triple_bind triple_closest fun found => ?_
  cases found with
  | some word =>
    exact triple_bind (keeps_move hI.advance attempt_advance) fun _ => triple_pure_keep
  | none => exact triple_pure_keep

/-- The finding at the end of the input is about the current token, too: there is none. -/
theorem keeps_endOfInput (closers : List Closer) :
    Triple (fun _ => I) (fun c past => I c past ∧ c.atEnd = true) (endOfInput closers)
      fun _ => I := by
  cases closers with
  | nil => exact triple_pre triple_pure_keep fun _ _ h => h.1
  | cons word closers =>
    refine triple_bind (Q := fun _ => I) (triple_pre triple_record fun c past h => ?_)
      fun _ => triple_halt
    have hline : c.line? = none := by
      have htokens : c.tokens = [] := by simpa [Cursor.atEnd] using h.2
      simp [Cursor.line?, Cursor.current?, htokens]
    exact hI.record (hline ▸ .finding .notClosed) h.1

theorem Built.keeps {p : Parse α} (h : Built p) : Keeps I p := by
  induction h with
  | pure => exact triple_pure_keep
  | bind _ _ ihp ihf => exact triple_bind ihp ihf
  | loop _ s ih =>
    refine triple_loop_of_endless (I := fun _ => I) (fun _ _ _ h => h)
      (fun s => triple_post (ih s) fun turn _ _ h => ?_) s
    cases turn with
    | again => exact h
    | done => exact h
  | look => exact triple_look_keep
  | move hf => exact keeps_move hI.advance hf
  | unexpected need => exact keeps_record hI fun _ => .finding (.unexpected need)
  | anonymous => exact keeps_record hI fun _ => .anonymous
  | parameters names variadic => exact keeps_record hI fun _ => .parameters names variadic
  | named hnaming _ _ ihreader ihbody =>
    refine triple_bind (hI.named hnaming ihreader) fun name => triple_bind ?_ fun _ => ihbody
    exact triple_pre triple_record fun _ _ h => h
  | lack hwanted hplace => exact keeps_lackNoting hI fun _ => .finding (.missing hwanted hplace)
  | lackInHeader hwanted => exact keeps_lackNoting hI fun _ => .headerLacks hwanted
  | misspelt closers => exact keeps_misspeltHead hI closers
  | afterLast closers => exact keeps_afterLast hI closers
  | unlessAtEnd closers _ ih =>
    refine triple_bind triple_look_eq fun atEnd => triple_ite (fun hatEnd => ?_) fun _ => ?_
    · exact triple_pre (keeps_endOfInput hI closers) fun _ _ h => ⟨h.1, h.2.trans hatEnd⟩
    · exact triple_pre ih fun _ _ h => h.1
  | tooDeep =>
    refine triple_bind (Q := fun _ => I) (keeps_record hI fun _ => .finding .tooDeep)
      fun _ => ?_
    exact triple_halt

/-- What the parse of a program leads to. -/
theorem program_keeps (speller : Speller) {ts : List Token} (hstart : I (.ofList ts) []) :
    ∃ rest, I rest (program speller (.ofList ts)).events := by
  have hs := built_program.keeps hI speller (.ofList ts) [] hstart
  generalize program speller (.ofList ts) = s at hs ⊢
  obtain ⟨outcome, rest, es⟩ := s
  cases outcome with
  | error halt => exact ⟨rest, hs⟩
  | ok closed => exact ⟨rest, hs⟩

end LuaChecker.Grammar

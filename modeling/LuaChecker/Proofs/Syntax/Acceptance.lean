import LuaChecker.Proofs.Parsing.Findings
import LuaChecker.Proofs.Parsing.Recovery
import LuaChecker.Proofs.Syntax.Completeness
import LuaChecker.Proofs.Syntax.Soundness

/-!
# Acceptance

A list of tokens is accepted if the check says nothing about it but that functions are
declared again. The accepted lists are those with a derivation from the grammar.

* `redefinitions_only_iff`: nothing else is said if and only if the parse records no fault;
* `accepts_iff`: a list of tokens is accepted if and only if it has a derivation.
-/

namespace LuaChecker

/-- The diagnostic says that a function is declared again. -/
def Diagnostic.IsRedefinition (d : Diagnostic) : Prop :=
  ∃ name, d.message = "Function '" ++ name ++ "' defined multiple times"

namespace Grammar

/-! ## Faults and diagnostics -/

theorem message_eq_redefined {cause : Cause} {name : String}
    (h : cause.message = "Function '" ++ name ++ "' defined multiple times") :
    ∃ name, cause = .redefined name := by
  have hhead := congrArg (fun s => s.toList.head?) h
  cases cause with
  | redefined name => exact ⟨name, rfl⟩
  | missing | unexpected | typo => simp [Cause.message] at hhead
  | unreachable | notClosed | tooDeep => simp [Cause.message] at hhead

theorem isRedefinition_iff {line : Option Nat} {cause : Cause} :
    (⟨line, cause.message⟩ : Diagnostic).IsRedefinition ↔
      (Event.finding line cause).isFault = false := by
  constructor
  · rintro ⟨name, h⟩
    obtain ⟨name, rfl⟩ := message_eq_redefined h
    rfl
  · intro h
    cases cause with
    | redefined name => exact ⟨name, rfl⟩
    | _ => cases h

/-- What an event adds is more than a redefinition just if the event is a fault. -/
theorem adds_isRedefinition_iff (l : Ledger) (e : Event) :
    (∀ d ∈ ((l.adds? e).map Ledger.diagnosticOf).toList, d.IsRedefinition) ↔
      e.isFault = false := by
  have hone (line : Option Nat) (cause : Cause) :
      (∀ d ∈ [Ledger.diagnosticOf (line, cause)], d.IsRedefinition) ↔
        (Event.finding line cause).isFault = false := by
    rw [List.forall_mem_singleton]
    exact isRedefinition_iff
  cases hadds : l.adds? e with
  | none =>
    refine iff_of_true (List.forall_mem_nil _) ?_
    cases e with
    | finding | headerLacks => cases hadds
    | header | parameters => rfl
  | some found =>
    obtain ⟨line, cause⟩ := found
    refine (hone line cause).trans ?_
    rcases Ledger.adds_cases hadds with rfl | ⟨name, rfl, rfl⟩ | ⟨found, wanted, rfl, rfl⟩
    · exact Iff.rfl
    · exact Iff.rfl
    · exact Iff.rfl

theorem isRedefinition_diagnostics_iff (es : List Event) :
    (∀ d ∈ (Ledger.ofEvents es).diagnostics, d.IsRedefinition) ↔
      ∀ e ∈ es, e.isFault = false := by
  induction es using List.reverseRecOn with
  | nil => exact iff_of_true (List.forall_mem_nil _) (List.forall_mem_nil _)
  | append_singleton es e ih =>
    rw [Ledger.diagnostics_concat_event, List.forall_mem_append, ih, adds_isRedefinition_iff,
      List.forall_mem_append, List.forall_mem_singleton]

/-- The check says nothing but that functions are declared again if and only if the parse
records no fault. -/
theorem redefinitions_only_iff (threshold : Float) (ts : List Token) :
    (∀ d ∈ (checkTokens threshold ts).diagnostics, d.IsRedefinition) ↔
      ∀ e ∈ (program (.ofThreshold threshold) (.ofList ts)).events, e.isFault = false := by
  rw [diagnostics_checkTokens]
  exact isRedefinition_diagnostics_iff _

/-! ## Programs -/

theorem halt_recordedLast_isFault {halt : Halt} {es : List Event} (h : halt.RecordedLast es) :
    ∃ e ∈ es, e.isFault = true := by
  cases halt with
  | endOfInput => exact ⟨_, List.mem_of_getLast? h, rfl⟩
  | tooDeep =>
    obtain ⟨line, h⟩ := h
    exact ⟨_, List.mem_of_getLast? h, rfl⟩
  | ellipsis | misspeltCloser | endless => exact h.elim

theorem reads_program {speller : Speller} {ts : List Token}
    (h : ∀ e ∈ (program speller (.ofList ts)).events, e.isFault = false) :
    ∃ closed us es, Reads Faultless speller program ts closed us es := by
  have hends := (program_ends speller ts).1
  rcases hs : program speller (.ofList ts) with ⟨outcome, rest, es⟩
  rw [hs] at h hends
  cases outcome with
  | error halt =>
    obtain ⟨e, he, hfault⟩ := halt_recordedLast_isFault (hends halt rfl)
    cases hfault.symm.trans (h e he)
  | ok closed => exact ⟨closed, rest.tokens, es, by rw [hs, Cursor.ofList_tokens], h⟩

theorem program_yields_of_means {speller : Speller} {ts : List Token} {es : List Event}
    (hts : Lexical ts) (h : Means speller 200 [] .chunk ts [] es) :
    Yields speller program ts none [] es :=
  (complete_nested maxLevels).chunk hts h ⟨rfl, rfl, rfl⟩

theorem headerEvents_faultless (hs : List Header) : ∀ e ∈ headerEvents hs, Faultless e := by
  intro e he
  obtain ⟨h, -, he⟩ := List.mem_flatMap.mp he
  rcases List.mem_cons.mp he with rfl | he
  · rfl
  · unfold parameterEvents at he
    split at he
    · cases he
    · obtain rfl := List.mem_singleton.mp he
      rfl

theorem program_reads_of_derives (speller : Speller) {ts : List Token} {hs : List Header}
    (hts : Lexical ts) (h : Derives 200 .chunk ts [] hs) :
    Reads Faultless speller program ts none [] (headerEvents hs) :=
  ⟨(program_yields_of_means hts (h.means speller [])).eq, headerEvents_faultless hs⟩

/-- A parse that records no fault has read a derivation. -/
theorem exists_derives_of_faultless {speller : Speller} {ts : List Token} (hts : Lexical ts)
    (h : ∀ e ∈ (program speller (.ofList ts)).events, e.isFault = false) :
    ∃ hs, Derives 200 .chunk ts [] hs := by
  obtain ⟨closed, us, es, hread⟩ := reads_program h
  obtain ⟨mid, ⟨hs, hmid⟩, hclosed⟩ := (sound_nested maxLevels).chunk hts hread
  cases closed with
  | some word => cases hclosed.1
  | none =>
    obtain ⟨-, rfl, -⟩ := hclosed
    exact ⟨hs, hmid⟩

/-- **Acceptance.** Of tokens as the lexer yields them, those are accepted that have a
derivation through no more than 200 nested expressions and chunks. -/
theorem accepts_iff (threshold : Float) (ts : List Token) (hts : Lexical ts) :
    (∀ d ∈ (checkTokens threshold ts).diagnostics, d.IsRedefinition) ↔
      ∃ hs, Derives 200 .chunk ts [] hs := by
  rw [redefinitions_only_iff]
  constructor
  · exact exists_derives_of_faultless hts
  · rintro ⟨hs, h⟩
    have hread := program_reads_of_derives (.ofThreshold threshold) hts h
    rw [hread.eq]
    exact hread.fine

def callTokens : List Token :=
  [⟨1, 0, 1, .name, "f"⟩, ⟨1, 1, 1, .symbol, "("⟩, ⟨1, 2, 1, .symbol, ")"⟩]

theorem derives_callTokens : Derives 200 .chunk callTokens [] [] := by
  have hopening : Derives 199 (.word "(") (callTokens.drop 1) (callTokens.drop 2) [] := .word rfl
  have hclosing : Derives 199 (.word ")") (callTokens.drop 2) [] [] := .word rfl
  have hname : Derives 199 .name callTokens (callTokens.drop 1) [] := .ofKind rfl
  have harguments : Derives 199 .arguments (callTokens.drop 1) [] [] :=
    .right (.left (.andThen hopening (.andThen (.right .empty) hclosing)))
  have hcall : Derives 199 .call (callTokens.drop 1) [] [] := .andThen (.right .empty) harguments
  have hstatement : Derives 199 .statement callTokens [] [] :=
    .right (.left (.whole (.andThen (.left hname) (.andThen .manyNil hcall)) rfl))
  exact .chunk (.andThen (.manyCons (.andThen hstatement (.right .empty)) .manyNil)
    (.right .empty))

theorem accepts_iff_callTokens :
    Derives 200 .chunk callTokens [] [] ∧
      ((∀ d ∈ (checkTokens 0.5 callTokens).diagnostics, d.IsRedefinition) ↔
        ∃ hs, Derives 200 .chunk callTokens [] hs) :=
  ⟨derives_callTokens, accepts_iff 0.5 callTokens (by decide)⟩

end Grammar

end LuaChecker

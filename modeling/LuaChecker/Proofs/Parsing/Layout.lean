import LuaChecker.Check
import LuaChecker.Proofs.FunctionTable
import LuaChecker.Proofs.Parsing.Labels
import LuaChecker.Proofs.Parsing.Lockstep

/-!
# The layout of a program

Where the tokens of a program stand has an influence on two things only: on the lines of the
diagnostics, and on the lines in the labels of functions without a name. The function table
compares labels, but these lines decide nothing unless a token has the text of a label. An
outline is a report with everything but the lines filled in, and the reports for all layouts of
a program come from one outline.

* `Draft.ledger_record`: the events of all layouts lead to ledgers with the same outline;
* `layout_irrelevant`: the reports for all layouts of a program;
* `layout_decides_redefinition`: tokens with the text of a label, for which this is not so.
-/

namespace LuaChecker.Grammar

/-! ## What functions are called -/

/-- What a function is called. -/
inductive Called
  | named (name : String)
  | anonymous (number : Nat) (line : Option Nat)
  deriving DecidableEq

namespace Called

/-- The name or the label of a function, if the lines are renumbered. -/
def text (g : Nat → Nat) : Called → String
  | named name => name
  | anonymous number line => Ledger.anonymousLabel number (line.map g)

/-- A name is not a label. -/
def Proper : Called → Prop
  | named name => ¬ IsLabel name
  | anonymous _ _ => True

/-- The number of functions without a name that this is. -/
def count : Called → Nat
  | named _ => 0
  | anonymous _ _ => 1

end Called

/-! ## Outlines -/

/-- A diagnostic, with the function whose label it may have in it. -/
inductive Remark
  | finding (line : Option Nat) (cause : Cause)
  /-- A token is not there in the header of a function. -/
  | headerLacks (line : Option Nat) (found wanted : String) (function : Called)

/-- The diagnostic, if the lines are renumbered. -/
def Remark.diagnostic (g : Nat → Nat) : Remark → Diagnostic
  | finding line cause => ⟨line.map g, cause.message⟩
  | headerLacks line found wanted function =>
    ⟨line.map g, (Cause.missing found wanted (.header (function.text g))).message⟩

/-- The entry of a function table, if the lines are renumbered. -/
def entryText (g : Nat → Nat) (e : Called × List String) : String × List String :=
  (e.1.text g, e.2)

/-- A report up to the lines in it. -/
structure Outline where
  remarks : List Remark
  /-- The functions with their parameters, each one once. -/
  entries : List (Called × List String)

/-- The function table, if the lines are renumbered. -/
def tableText (g : Nat → Nat) (es : List (Called × List String)) : FunctionTable :=
  .ofEntries (es.map (entryText g))

/-- The report, if the lines are renumbered. -/
def Outline.report (g : Nat → Nat) (o : Outline) : Report :=
  ⟨o.remarks.map (Remark.diagnostic g), tableText g o.entries⟩

/-! ## Functions that lines do not mix up -/

/-- No two of these functions are called alike, whatever the lines are. -/
def Apart (as : List Called) : Prop :=
  ∀ (g : Nat → Nat), ∀ a ∈ as, ∀ b ∈ as, a.text g = b.text g → a = b

namespace Apart

variable {as : List Called} {a b : Called}

theorem subset {bs : List Called} (h : Apart as) (hsub : bs ⊆ as) : Apart bs :=
  fun g a ha b hb => h g a (hsub ha) b (hsub hb)

theorem text_inj (h : Apart as) (ha : a ∈ as) (hb : b ∈ as) (g : Nat → Nat) :
    a.text g = b.text g ↔ a = b :=
  ⟨h g a ha b hb, congrArg (Called.text g)⟩

end Apart

/-- Starts the entry of a function anew. -/
def restart (a : Called) (es : List (Called × List String)) : List (Called × List String) :=
  (a, []) :: es.filter (·.1 ≠ a)

/-- Adds parameters to the entry of a function. -/
def addTo (a : Called) (params : List String) (es : List (Called × List String)) :
    List (Called × List String) :=
  es.map fun e => if e.1 = a then (e.1, e.2 ++ params) else e

theorem addTo_keys (a : Called) (params : List String) (es : List (Called × List String)) :
    (addTo a params es).map (·.1) = es.map (·.1) := by
  unfold addTo
  rw [List.map_map]
  refine List.map_congr_left fun e _ => ?_
  simp only [Function.comp]
  split <;> rfl

theorem mem_restart {a b : Called} {es : List (Called × List String)}
    (h : b ∈ (restart a es).map (·.1)) : b = a ∨ b ∈ es.map (·.1) := by
  rcases List.mem_cons.mp h with rfl | h
  · exact .inl rfl
  · exact .inr ((List.filter_sublist.map _).subset h)

section

variable {a : Called} {es : List (Called × List String)} {g : Nat → Nat}

theorem contains_text (h : Apart (a :: es.map (·.1))) (g : Nat → Nat) :
    (tableText g es).contains (a.text g) = decide (a ∈ es.map (·.1)) := by
  rw [Bool.eq_iff_iff, decide_eq_true_iff, FunctionTable.contains_iff, tableText,
    FunctionTable.params?_ofEntries, FunctionTable.isSome_lookup_iff, List.map_map,
    List.mem_map, List.mem_map]
  refine exists_congr fun e => and_congr_right fun he => ?_
  exact h.text_inj (List.mem_cons_of_mem _ (List.mem_map_of_mem he)) List.mem_cons_self g

/-- The entry that is started anew is not looked up under another name. -/
theorem lookup_filter_text {key : String} (hkey : key ≠ a.text g) :
    ((es.filter (·.1 ≠ a)).map (entryText g)).lookup key =
      (es.map (entryText g)).lookup key := by
  induction es with
  | nil => rfl
  | cons e es ih =>
    by_cases he : e.1 = a
    · have hne : key ≠ (entryText g e).1 := by
        rw [entryText, he]
        exact hkey
      rw [List.filter_cons_of_neg (by simpa using he), List.map_cons,
        FunctionTable.lookup_entry, if_neg hne, ih]
    · rw [List.filter_cons_of_pos (by simpa using he), List.map_cons, List.map_cons,
        FunctionTable.lookup_entry, FunctionTable.lookup_entry, ih]

theorem declare_text (a : Called) (es : List (Called × List String)) (g : Nat → Nat) :
    (tableText g es).declare (a.text g) = tableText g (restart a es) := by
  have hordered : (tableText g es).IsOrdered := FunctionTable.isOrdered_ofEntries _
  refine hordered.declare.ext (FunctionTable.isOrdered_ofEntries _) fun key => ?_
  rw [FunctionTable.params?_declare, tableText, tableText, FunctionTable.params?_ofEntries,
    FunctionTable.params?_ofEntries, restart, List.map_cons, FunctionTable.lookup_entry]
  change (if key = (entryText g (a, [])).1 then some [] else _) = _
  by_cases hkey : key = (entryText g (a, [])).1
  · rw [if_pos hkey, if_pos hkey]
    rfl
  · rw [if_neg hkey, if_neg hkey]
    exact (lookup_filter_text hkey).symm

theorem addParams_text (h : Apart (a :: es.map (·.1))) (params : List String) (g : Nat → Nat) :
    (tableText g es).addParams (a.text g) params = tableText g (addTo a params es) := by
  rw [tableText, FunctionTable.addParams_ofEntries, tableText, FunctionTable.addParams, addTo,
    List.map_map, List.map_map]
  refine congrArg FunctionTable.ofEntries (List.map_congr_left fun e he => ?_)
  have hmem : e.1 ∈ a :: es.map (·.1) := List.mem_cons_of_mem _ (List.mem_map_of_mem he)
  have heq : e.1.text g = a.text g ↔ e.1 = a := h.text_inj hmem List.mem_cons_self g
  simp only [Function.comp, entryText, heq]
  split <;> rfl

end

/-! ## Drafts -/

/-- A ledger up to the lines in it. -/
structure Draft extends Outline where
  anonymous : Nat
  current : Called

namespace Draft

/-- The draft in front of all events. -/
def initial : Draft := ⟨⟨[], []⟩, 0, .named ""⟩

/-- The ledger, if the lines are renumbered. -/
def ledger (g : Nat → Nat) (d : Draft) : Ledger where
  findings := (d.remarks.map (Remark.diagnostic g)).reverse
  functions := tableText g d.entries
  anonymous := d.anonymous
  current := d.current.text g

def remark (d : Draft) (r : Remark) : Draft :=
  { d with remarks := d.remarks ++ [r] }

/-- The function whose header comes next. -/
def next (d : Draft) (line : Option Nat) (name : String) : Called :=
  if name.isEmpty then .anonymous d.anonymous line else .named name

def declare (d : Draft) (line : Option Nat) (a : Called) : Draft :=
  let d' :=
    if a ∈ d.entries.map (·.1) then d.remark (.finding line (.redefined (a.text id))) else d
  { d' with
    entries := restart a d.entries
    anonymous := d.anonymous + a.count
    current := a }

def record (d : Draft) : Event → Draft
  | .finding line cause => d.remark (.finding line cause)
  | .header line name => d.declare line (d.next line name)
  | .headerLacks line found wanted => d.remark (.headerLacks line found wanted d.current)
  | .parameters names variadic =>
    let named := addTo d.current names d.entries
    { d with
      entries := if variadic then addTo d.current [FunctionTable.variadic] named else named }

/-- The functions that the draft is about. -/
def functions (d : Draft) : List Called := d.current :: d.entries.map (·.1)

/-- Names and labels do not meet, and labels have the numbers of earlier functions. -/
structure Fine (d : Draft) : Prop where
  apart : Apart d.functions
  proper : ∀ a ∈ d.functions, a.Proper
  number : ∀ n line, .anonymous n line ∈ d.functions → n < d.anonymous

theorem fine_initial : initial.Fine := by
  refine ⟨fun g a ha b hb _ => ?_, fun a ha => ?_, fun n line h => ?_⟩
  · rw [List.mem_singleton.mp ha, List.mem_singleton.mp hb]
  · rw [List.mem_singleton.mp ha]
    exact inherited_notLabel.empty
  · cases List.mem_singleton.mp h

variable {d : Draft} {g : Nat → Nat}

/-! ### What a step keeps -/

/-- A function that may be declared next: one with a proper name, or the next one without. -/
def Admits (d : Draft) : Called → Prop
  | .named name => ¬ IsLabel name
  | .anonymous number _ => number = d.anonymous

theorem Admits.proper {a : Called} (ha : d.Admits a) : a.Proper := by
  cases a with
  | named name => exact ha
  | anonymous number line => trivial

theorem admits_next (line : Option Nat) {name : String} (h : ¬ IsLabel name) :
    d.Admits (d.next line name) := by
  by_cases hname : name.isEmpty = true
  · rw [next, if_pos hname]
    rfl
  · rw [next, if_neg hname]
    exact h

/-- A new function is told apart from the others whatever the lines are. -/
theorem Fine.eq_of_text (h : d.Fine) {a b : Called} (ha : d.Admits a) (hb : b ∈ d.functions)
    (htext : a.text g = b.text g) : a = b := by
  have hproper := h.proper b hb
  cases a with
  | named name =>
    cases b with
    | named other => exact congrArg Called.named htext
    | anonymous number line => exact absurd ⟨number, line.map g, htext⟩ ha
  | anonymous number line =>
    cases b with
    | named other => exact absurd ⟨number, line.map g, htext.symm⟩ hproper
    | anonymous other line' =>
      have hlt := h.number other line' hb
      rw [← number_of_label htext, show number = d.anonymous from ha] at hlt
      exact absurd hlt (Nat.lt_irrefl _)

theorem Fine.apart_cons (h : d.Fine) {a : Called} (ha : d.Admits a) :
    Apart (a :: d.functions) := by
  intro g b hb c hc htext
  rcases List.mem_cons.mp hb with hba | hold
  · subst hba
    rcases List.mem_cons.mp hc with hcb | hold
    · exact hcb.symm
    · exact h.eq_of_text ha hold htext
  · rcases List.mem_cons.mp hc with hca | hold'
    · subst hca
      exact (h.eq_of_text ha hold htext.symm).symm
    · exact h.apart g b hold c hold' htext

theorem functions_declare_subset (d : Draft) (line : Option Nat) (a : Called) :
    (d.declare line a).functions ⊆ a :: d.functions := by
  intro b hb
  rcases List.mem_cons.mp hb with rfl | hb
  · exact List.mem_cons_self
  · rcases mem_restart hb with rfl | hb
    · exact List.mem_cons_self
    · exact List.mem_cons_of_mem _ (List.mem_cons_of_mem _ hb)

theorem Fine.declare (h : d.Fine) {a : Called} (ha : d.Admits a) (line : Option Nat) :
    (d.declare line a).Fine := by
  have hsub := functions_declare_subset d line a
  refine ⟨(h.apart_cons ha).subset hsub, fun b hb => ?_, fun n line' hmem => ?_⟩
  · rcases List.mem_cons.mp (hsub hb) with rfl | hb
    · exact ha.proper
    · exact h.proper b hb
  change n < d.anonymous + a.count
  rcases List.mem_cons.mp (hsub hmem) with rfl | hmem
  · rw [show n = d.anonymous from ha]
    exact Nat.lt_succ_self _
  · exact Nat.lt_of_lt_of_le (h.number n line' hmem) (Nat.le_add_right _ _)

theorem Fine.record (h : d.Fine) {e : Event} (he : e.NameIs (¬ IsLabel ·)) :
    (d.record e).Fine := by
  cases e with
  | finding line cause => exact ⟨h.apart, h.proper, h.number⟩
  | header line name => exact h.declare (admits_next line (he line name rfl)) line
  | headerLacks line found wanted => exact ⟨h.apart, h.proper, h.number⟩
  | parameters names variadic =>
    have hfunctions : (d.record (.parameters names variadic)).functions = d.functions := by
      unfold functions Draft.record
      cases variadic with
      | true => exact congrArg _ ((addTo_keys _ _ _).trans (addTo_keys _ _ _))
      | false => exact congrArg _ (addTo_keys _ _ _)
    exact ⟨hfunctions ▸ h.apart, hfunctions ▸ h.proper, hfunctions ▸ h.number⟩

/-! ### What a step leads to -/

theorem ledger_remark (r : Remark) :
    (d.remark r).ledger g =
      { d.ledger g with findings := r.diagnostic g :: (d.ledger g).findings } := by
  simp [remark, ledger]

/-- Only a function with a name is ever declared again. -/
theorem Fine.text_eq (h : d.Fine) {a : Called} (ha : d.Admits a)
    (hmem : a ∈ d.entries.map (·.1)) (g : Nat → Nat) : a.text id = a.text g := by
  cases a with
  | named name => rfl
  | anonymous number line =>
    have hlt := h.number number line (List.mem_cons_of_mem _ hmem)
    rw [show number = d.anonymous from ha] at hlt
    exact absurd hlt (Nat.lt_irrefl _)

theorem ledger_declare (h : d.Fine) {a : Called} (ha : d.Admits a) (line : Option Nat)
    (g : Nat → Nat) :
    { d.ledger g with anonymous := d.anonymous + a.count }.declare (line.map g) (a.text g) =
      (d.declare line a).ledger g := by
  have hapart : Apart (a :: d.entries.map (·.1)) :=
    (h.apart_cons ha).subset (List.cons_subset_cons _ (List.subset_cons_self _ _))
  have hcontains := contains_text hapart g
  have hdeclare := declare_text a d.entries g
  simp only [Ledger.declare, Draft.declare, ledger, hcontains, hdeclare, decide_eq_true_iff]
  by_cases hmem : a ∈ d.entries.map (·.1)
  · have htext := h.text_eq ha hmem g
    simp [hmem, Ledger.report, remark, Remark.diagnostic, htext]
  · simp only [hmem, if_false]

theorem text_next (line : Option Nat) (name : String) :
    (d.next line name).text g =
      if name.isEmpty then Ledger.anonymousLabel d.anonymous (line.map g) else name := by
  unfold next
  split <;> rfl

theorem count_next (line : Option Nat) (name : String) :
    (d.next line name).count = if name.isEmpty then 1 else 0 := by
  unfold next
  split <;> rfl

/-- The events of all layouts lead to ledgers with the same draft. -/
theorem ledger_record (h : d.Fine) {e : Event} (he : e.NameIs (¬ IsLabel ·)) (g : Nat → Nat) :
    (d.ledger g).record (e.relaid g) = (d.record e).ledger g := by
  cases e with
  | finding line cause => exact (ledger_remark (.finding line cause)).symm
  | header line name =>
    have hdeclare := ledger_declare h (admits_next line (he line name rfl)) line g
    rw [text_next, count_next] at hdeclare
    rw [Draft.record, ← hdeclare]
    by_cases hname : name.isEmpty = true
    · simp only [Event.relaid, Ledger.record, if_pos hname]
      rfl
    · simp only [Event.relaid, Ledger.record, if_neg hname]
      rfl
  | headerLacks line found wanted =>
    exact (ledger_remark (.headerLacks line found wanted d.current)).symm
  | parameters names variadic =>
    have hnamed := addParams_text h.apart names g
    have hkeys : Apart (d.current :: (addTo d.current names d.entries).map (·.1)) := by
      rw [addTo_keys]
      exact h.apart
    have hvariadic := addParams_text hkeys [FunctionTable.variadic] g
    simp only [Event.relaid, Ledger.record, Draft.record, ledger, hnamed]
    cases variadic with
    | true => simp only [if_true, FunctionTable.markVariadic, hvariadic]
    | false => rfl

theorem ledger_foldl (h : d.Fine) {es : List Event} (hes : ∀ e ∈ es, e.NameIs (¬ IsLabel ·))
    (g : Nat → Nat) :
    (es.map (Event.relaid g)).foldl Ledger.record (d.ledger g) =
      (es.foldl Draft.record d).ledger g := by
  induction es generalizing d with
  | nil => rfl
  | cons e es ih =>
    rw [List.forall_mem_cons] at hes
    rw [List.map_cons, List.foldl_cons, List.foldl_cons, ledger_record h hes.1 g]
    exact ih (h.record hes.1) hes.2

theorem report_ledger (g : Nat → Nat) (d : Draft) :
    (⟨(d.ledger g).diagnostics, (d.ledger g).functions⟩ : Report) = d.report g := by
  simp [Ledger.diagnostics, ledger, Outline.report]

end Draft

/-! ## Programs -/

/-- The report on tokens that are laid out differently, if no token has the text of a label. -/
theorem checkTokens_relaid (threshold : Float) {ts us : List Token} {g : Nat → Nat}
    (hts : ∀ t ∈ ts, ¬ IsLabel t.text) (h : List.Forall₂ (Token.Relaid g) ts us) :
    let es := (program (.ofThreshold threshold) (.ofList ts)).events
    checkTokens threshold us = (es.foldl Draft.record .initial).report g := by
  intro es
  have hes : ∀ e ∈ es, e.NameIs (¬ IsLabel ·) :=
    program_names inherited_notLabel (.ofThreshold threshold) hts
  have hevents : (program (.ofThreshold threshold) (.ofList us)).events =
      es.map (Event.relaid g) := by
    have hstep := built_program.lockstep (.ofThreshold threshold) (.ofList ts) (.ofList us) h
    change (program (.ofThreshold threshold) (.ofList us)).events =
      (program (.ofThreshold threshold) (.ofList ts)).events.map (Event.relaid g)
    generalize program (.ofThreshold threshold) (.ofList ts) = s at hstep ⊢
    generalize program (.ofThreshold threshold) (.ofList us) = t at hstep ⊢
    cases hstep with
    | intro outcome hrest events => rfl
  have hledger : parse (.ofThreshold threshold) us =
      (es.foldl Draft.record .initial).ledger g := by
    rw [parse_eq, hevents]
    exact Draft.ledger_foldl Draft.fine_initial hes g
  rw [checkTokens, hledger, ← Draft.report_ledger]

/-- No token of a source has the text of a label. -/
theorem lex_not_isLabel (comments : Bool) (source : List Char) :
    ∀ t ∈ (lex comments source).tokens, ¬ IsLabel t.text :=
  fun t ht hlabel =>
    not_looksAnonymous_of_isLexed (lex_isLexed comments source t ht) hlabel.looksAnonymous

/-- **Layout.** Of tokens none of which has the text of a label, the lines have an influence
only on the lines of the report: if the tokens stand elsewhere, the report has the same
diagnostics in the same order and the same functions, with the new lines in place of the old
ones, before the messages and in the labels of functions without a name. The tokens of every
source are of this sort. -/
theorem layout_irrelevant (threshold : Float) :
    (∀ ts : List Token, (∀ t ∈ ts, ¬ IsLabel t.text) →
      ∃ o : Outline, checkTokens threshold ts = o.report id ∧
        ∀ (g : Nat → Nat) (us : List Token), List.Forall₂ (Token.Relaid g) ts us →
          checkTokens threshold us = o.report g) ∧
      ∀ comments source, ∀ t ∈ (lex comments source).tokens, ¬ IsLabel t.text := by
  refine ⟨fun ts hts => ?_, lex_not_isLabel⟩
  have hsame : List.Forall₂ (Token.Relaid id) ts ts :=
    List.forall₂_same.mpr fun t _ => ⟨rfl, rfl, rfl⟩
  refine ⟨_, checkTokens_relaid threshold hts hsame, fun g us h => ?_⟩
  exact checkTokens_relaid threshold hts h

/-- `x = function() end` on three lines -/
def unnamedTokens : List Token :=
  [⟨1, 0, 1, .name, "x"⟩, ⟨1, 2, 1, .symbol, "="⟩, ⟨2, 4, 8, .keyword, "function"⟩,
    ⟨2, 12, 1, .symbol, "("⟩, ⟨2, 13, 1, .symbol, ")"⟩, ⟨3, 15, 3, .keyword, "end"⟩]

theorem layout_irrelevant_unnamedTokens :
    (∀ t ∈ unnamedTokens, ¬ IsLabel t.text) ∧
      ∃ o : Outline, checkTokens 0.65 unnamedTokens = o.report id ∧
        ∀ (g : Nat → Nat) (us : List Token),
          List.Forall₂ (Token.Relaid g) unnamedTokens us →
            checkTokens 0.65 us = o.report g := by
  have hblank : ∀ t ∈ unnamedTokens, ' ' ∉ t.text.toList := by decide
  have hlabels : ∀ t ∈ unnamedTokens, ¬ IsLabel t.text :=
    fun t ht hlabel => hblank t ht hlabel.looksAnonymous.blank_mem
  exact ⟨hlabels, (layout_irrelevant 0.65).1 unnamedTokens hlabels⟩

/-- `x = function() end` with the header on this line, and behind it `function` and a string
that is a label. A string of a source has its quotes in its text, so it is none. -/
def labelTokens (line : Nat) : List Token :=
  [⟨1, 0, 1, .name, "x"⟩, ⟨1, 2, 1, .symbol, "="⟩, ⟨1, 4, 8, .keyword, "function"⟩,
    ⟨line, 12, 1, .symbol, "("⟩, ⟨line, 13, 1, .symbol, ")"⟩, ⟨line, 15, 3, .keyword, "end"⟩,
    ⟨3, 0, 8, .keyword, "function"⟩, ⟨3, 9, 28, .string, "Unnamed function 0 on line 5"⟩]

/-- A string that is taken for the name of a function may be the label of another one. The line
of that function then decides whether there is one diagnostic more. -/
theorem layout_decides_redefinition :
    Lexical (labelTokens 5) ∧
      List.Forall₂ (Token.Relaid fun line => if line = 5 then 2 else line)
        (labelTokens 5) (labelTokens 2) ∧
      (checkTokens 0.65 (labelTokens 5)).diagnostics.length = 7 ∧
      (checkTokens 0.65 (labelTokens 2)).diagnostics.length = 6 := by
  refine ⟨by decide, ?_, by decide +kernel, by decide +kernel⟩
  repeat' constructor

end LuaChecker.Grammar

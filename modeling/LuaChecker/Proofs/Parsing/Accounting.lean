import LuaChecker.Proofs.Parsing.Headers
import LuaChecker.Proofs.Parsing.Layout
import LuaChecker.Proofs.Syntax.Acceptance

/-!
# An account of the functions

Each function header gives the function table an entry, or else a diagnostic that says that
the function is declared again. A function without a name is always new, since its label has
a number that no other label has and since no name starts like a label. So the table can be
held against the source: there are no more entries and such diagnostics than words
`function`, those included that were misspelt.

* `Accounted`: the ledger holds every header that was recorded;
* `Accounted.foldl_record`: it does so whatever is recorded;
* `functions_accounted`: the account of a check.
-/

namespace LuaChecker

/-! ## Diagnostics with a name in them -/

/-- What stands between two texts, if the whole text is put together like that. -/
def between (front back text : String) : String :=
  .ofList ((text.toList.drop front.toList.length).take
    (text.toList.length - (front.toList.length + back.toList.length)))

theorem exists_eq_between {front back text : String} :
    text = front ++ between front back text ++ back ↔
      ∃ inner, text = front ++ inner ++ back := by
  constructor
  · exact fun h => ⟨_, h⟩
  · rintro ⟨inner, rfl⟩
    have hinner : between front back (front ++ inner ++ back) = inner := by
      have hlength : front.toList.length + (inner.toList.length + back.toList.length) -
          (front.toList.length + back.toList.length) = inner.toList.length := by omega
      simp [between, hlength, String.ofList_toList]
    rw [hinner]

instance (d : Diagnostic) : Decidable d.IsRedefinition :=
  decidable_of_iff _ (@exists_eq_between "Function '" "' defined multiple times" d.message)

/-- The diagnostic says that a name is a misspelling of the word `function`. -/
def Diagnostic.IsFunctionTypo (d : Diagnostic) : Prop :=
  ∃ found, d.message = "Typo in '" ++ found ++ "' - should probably be 'function'"

instance (d : Diagnostic) : Decidable d.IsFunctionTypo :=
  decidable_of_iff _ (@exists_eq_between "Typo in '" "' - should probably be 'function'" d.message)

/-- No flaw of a piece is about functions. -/
theorem not_about_functions (line : Option Nat) (flaw : Flaw) :
    ¬ Diagnostic.IsRedefinition ⟨line, flaw.message⟩ ∧
      ¬ Diagnostic.IsFunctionTypo ⟨line, flaw.message⟩ := by
  have hhead : flaw.message.toList.head? ≠ some 'F' ∧
      flaw.message.toList.head? ≠ some 'T' := by
    cases flaw with
    | strayCharacter c => simp [Flaw.message]
    | _ => decide
  constructor
  · rintro ⟨name, h⟩
    apply hhead.1
    rw [show flaw.message = _ from h]
    simp
  · rintro ⟨found, h⟩
    apply hhead.2
    rw [show flaw.message = _ from h]
    simp

theorem lex_not_about_functions {comments : Bool} {source : List Char} {d : Diagnostic}
    (hd : d ∈ (lex comments source).diagnostics) : ¬ d.IsRedefinition ∧ ¬ d.IsFunctionTypo := by
  obtain ⟨p, -, hd⟩ := List.mem_flatMap.mp hd
  obtain ⟨flaw, -, rfl⟩ := List.mem_map.mp hd
  exact not_about_functions _ flaw

namespace Grammar

instance (text : String) : Decidable (LooksAnonymous text) :=
  inferInstanceAs (Decidable (labelStart <+: text.toList))

theorem redefined_inj {name other : String}
    (h : (Cause.redefined name).message = "Function '" ++ other ++ "' defined multiple times") :
    name = other := by
  simpa [Cause.message, ← String.toList_inj] using h

/-! ## Numbered labels -/

/-- Labels of functions without a name, by the lines of these functions. -/
def labels (lines : List (Option Nat)) : List String :=
  lines.mapIdx Ledger.anonymousLabel

theorem label_notMem (lines : List (Option Nat)) (line : Option Nat) :
    Ledger.anonymousLabel lines.length line ∉ labels lines := by
  intro h
  obtain ⟨i, hi, hlabel⟩ := List.mem_mapIdx.mp h
  exact absurd (number_of_label hlabel) (Nat.ne_of_lt hi)

/-- The names of the table that look like labels are the labels of so many functions. -/
def Numbered (t : FunctionTable) (count : Nat) : Prop :=
  ∃ lines : List (Option Nat), lines.length = count ∧
    (t.names.filter (LooksAnonymous ·)).Perm (labels lines)

theorem Numbered.contains_label {t : FunctionTable} {count : Nat} (h : Numbered t count)
    (line : Option Nat) : t.contains (Ledger.anonymousLabel count line) = false := by
  obtain ⟨lines, rfl, hperm⟩ := h
  rw [← Bool.not_eq_true, FunctionTable.contains_iff, ← FunctionTable.mem_names_iff]
  intro hmem
  refine label_notMem lines line (hperm.mem_iff.mp (List.mem_filter.mpr ⟨hmem, ?_⟩))
  exact decide_eq_true (looksAnonymous_label _ line)

/-- The next function without a name has the next label. -/
theorem Numbered.declare_label {t : FunctionTable} {count : Nat} (h : Numbered t count)
    (line : Option Nat) : Numbered (t.declare (Ledger.anonymousLabel count line)) (count + 1) := by
  have hnew := FunctionTable.names_declare_perm (h.contains_label line)
  obtain ⟨lines, rfl, hperm⟩ := h
  refine ⟨lines ++ [line], by simp, (hnew.filter _).trans ?_⟩
  have hlabels : labels (lines ++ [line]) =
      labels lines ++ [Ledger.anonymousLabel lines.length line] := List.mapIdx_concat
  have hlooks := looksAnonymous_label lines.length line
  rw [List.filter_cons_of_pos (by simpa using hlooks), hlabels]
  exact (hperm.cons _).trans (List.perm_append_singleton _ _).symm

/-- A function with a name has no label. -/
theorem Numbered.declare_name {t : FunctionTable} {count : Nat} (h : Numbered t count)
    (ht : t.IsOrdered) {name : String} (hname : ¬ LooksAnonymous name) :
    Numbered (t.declare name) count := by
  obtain ⟨lines, hlines, hperm⟩ := h
  refine ⟨lines, hlines, ?_⟩
  cases hcontains : t.contains name with
  | true =>
    rw [ht.names_declare hcontains]
    exact hperm
  | false =>
    refine ((FunctionTable.names_declare_perm hcontains).filter _).trans ?_
    rw [List.filter_cons_of_neg (by simpa using hname)]
    exact hperm

/-! ## Ledgers -/

/-- The ledger holds every header that was recorded: as an entry of the table, or as a
diagnostic about a name that was declared before. -/
structure Accounted (past : List Event) (l : Ledger) : Prop where
  ordered : l.functions.IsOrdered
  numbered : Numbered l.functions l.anonymous
  named : ∀ d ∈ l.findings, ∀ name,
    d.message = "Function '" ++ name ++ "' defined multiple times" → ¬ LooksAnonymous name
  headers : l.functions.size + l.findings.countP (·.IsRedefinition) = past.countP Event.isHeader
  typos : past.countP Event.isFunctionTypo ≤ l.findings.countP (·.IsFunctionTypo)

variable {past : List Event} {l : Ledger}

theorem accounted_initial : Accounted [] .initial where
  ordered := FunctionTable.isOrdered_empty
  numbered := ⟨[], rfl, .refl _⟩
  named := nofun
  headers := rfl
  typos := Nat.le_refl _

/-- A finding of the parse. -/
theorem Accounted.report (h : Accounted past l) (line : Option Nat) {cause : Cause} {e : Event}
    (hcause : ∀ name, cause ≠ .redefined name) (hheader : e.isHeader = false)
    (htypo : e.isFunctionTypo = true → Diagnostic.IsFunctionTypo ⟨line, cause.message⟩) :
    Accounted (past ++ [e]) (l.report line cause) := by
  have hnot (name : String) :
      ¬ cause.message = "Function '" ++ name ++ "' defined multiple times" := by
    intro hmessage
    obtain ⟨name, hname⟩ := message_eq_redefined hmessage
    exact hcause name hname
  constructor
  case ordered => exact h.ordered
  case numbered => exact h.numbered
  case named =>
    exact List.forall_mem_cons.mpr ⟨fun name hname => absurd hname (hnot name), h.named⟩
  case headers =>
    have hfinding : ¬ Diagnostic.IsRedefinition ⟨line, cause.message⟩ :=
      fun ⟨name, hname⟩ => hnot name hname
    simpa [Ledger.report, List.countP_append, hheader, List.countP_cons, hfinding] using h.headers
  case typos =>
    have htypos := h.typos
    simp only [Ledger.report, List.countP_append, List.countP_cons, List.countP_nil]
    by_cases he : e.isFunctionTypo = true
    · rw [if_pos he, if_pos (decide_eq_true (htypo he))]
      omega
    · rw [if_neg he]
      omega

/-- A header with the name or the label `label`. -/
theorem Accounted.declare (h : Accounted past l) {e : Event} (line : Option Nat) {label : String}
    {count : Nat} (hheader : e.isHeader = true) (htypo : e.isFunctionTypo = false)
    (hnumbered : Numbered (l.functions.declare label) count)
    (hagain : l.functions.contains label = true → ¬ LooksAnonymous label) :
    Accounted (past ++ [e]) ({ l with anonymous := count }.declare line label) := by
  have hheaders := h.headers
  have htypos := h.typos
  have hsize := (l.functions.declare label).length_names
  rw [← l.functions.length_names] at hheaders
  cases hcontains : l.functions.contains label with
  | true =>
    simp only [Ledger.declare, hcontains, if_true, Ledger.report]
    constructor
    case ordered => exact h.ordered.declare
    case numbered => exact hnumbered
    case named =>
      refine List.forall_mem_cons.mpr ⟨fun name hname => ?_, h.named⟩
      rw [← redefined_inj hname]
      exact hagain hcontains
    case headers =>
      have hfinding : Diagnostic.IsRedefinition ⟨line, (Cause.redefined label).message⟩ :=
        ⟨label, rfl⟩
      rw [h.ordered.names_declare hcontains] at hsize
      simp only [List.countP_append, List.countP_cons, List.countP_nil, hheader, hfinding]
      simp only [decide_true, if_true]
      omega
    case typos =>
      simp only [List.countP_append, List.countP_cons, List.countP_nil, htypo]
      simp only [Bool.false_eq_true, if_false]
      omega
  | false =>
    have hnew := (FunctionTable.names_declare_perm hcontains).length_eq
    simp only [Ledger.declare, hcontains, Bool.false_eq_true, if_false]
    constructor
    case ordered => exact h.ordered.declare
    case numbered => exact hnumbered
    case named => exact h.named
    case headers =>
      simp only [List.length_cons] at hnew
      simp only [List.countP_append, List.countP_singleton, hheader, if_true]
      omega
    case typos => simpa [List.countP_append, htypo] using htypos

/-- What an event does to the ledger is accounted for. -/
theorem Accounted.record (h : Accounted past l) {e : Event} (hname : e.NameIs (¬ LooksAnonymous ·))
    (hparsed : e.isRedefinition = false) : Accounted (past ++ [e]) (l.record e) := by
  cases e with
  | finding line cause =>
    refine h.report line (fun name heq => ?_) rfl fun htypo => ?_
    · rw [heq] at hparsed
      cases hparsed
    · cases cause with
      | typo found meant =>
        obtain rfl : meant = "function" := by simpa [Event.isFunctionTypo] using htypo
        exact ⟨found, by simp [Cause.message, ← String.toList_inj]⟩
      | _ => cases htypo
  | header line name =>
    by_cases hempty : name.isEmpty = true
    · simp only [Ledger.record, if_pos hempty]
      refine h.declare line rfl rfl (h.numbered.declare_label line) fun hcontains => ?_
      rw [h.numbered.contains_label line] at hcontains
      cases hcontains
    · simp only [Ledger.record, if_neg hempty]
      have hproper := hname line name rfl
      exact h.declare line rfl rfl (h.numbered.declare_name h.ordered hproper) fun _ => hproper
  | headerLacks line found wanted =>
    refine h.report line (fun name heq => ?_) rfl fun htypo => ?_
    · cases heq
    · cases htypo
  | parameters names variadic =>
    have hnames : (l.record (.parameters names variadic)).functions.names = l.functions.names := by
      cases variadic with
      | true => exact FunctionTable.names_addParams.trans FunctionTable.names_addParams
      | false => exact FunctionTable.names_addParams
    have hsize := (l.record (.parameters names variadic)).functions.length_names
    rw [hnames, l.functions.length_names] at hsize
    have hfindings : (l.record (.parameters names variadic)).findings = l.findings := rfl
    constructor
    case ordered =>
      rw [FunctionTable.IsOrdered, hnames]
      exact h.ordered
    case numbered =>
      rw [Numbered, hnames]
      exact h.numbered
    case named => exact h.named
    case headers => simpa [← hsize, hfindings, List.countP_append, Event.isHeader] using h.headers
    case typos => simpa [hfindings, List.countP_append, Event.isFunctionTypo] using h.typos

theorem Accounted.foldl_record (h : Accounted past l) {es : List Event}
    (hes : ∀ e ∈ es, e.NameIs (¬ LooksAnonymous ·) ∧ e.isRedefinition = false) :
    Accounted (past ++ es) (es.foldl Ledger.record l) := by
  induction es generalizing past l with
  | nil => simpa using h
  | cons e es ih =>
    rw [List.forall_mem_cons] at hes
    have hnext := ih (h.record hes.1.1 hes.1.2) hes.2
    rwa [List.append_assoc] at hnext

/-! ## Programs -/

theorem parse_accounted (speller : Speller) {ts : List Token} (hts : ∀ t ∈ ts, t.IsLexed) :
    Accounted (program speller (.ofList ts)).events (parse speller ts) := by
  have hnames := program_names inherited_notLooksAnonymous speller fun t ht =>
    not_looksAnonymous_of_isLexed (hts t ht)
  rw [parse_eq]
  exact accounted_initial.foldl_record fun e he =>
    ⟨hnames e he, (program_headers speller ts).2 e he⟩

end Grammar

/-- What the lexer never says is in a report as often as the parse says it. -/
theorem countP_check (settings : Settings) (source : String) {p : Diagnostic → Bool}
    (hp : ∀ d ∈ (lex settings.comments source.toList).diagnostics, p d = false) :
    (check settings source).diagnostics.countP p =
      (Grammar.parse (.ofThreshold settings.threshold)
        (lex settings.comments source.toList).tokens).findings.countP p := by
  have hlexed : (lex settings.comments source.toList).diagnostics.countP p = 0 :=
    List.countP_eq_zero.mpr fun d hd => by simp [hp d hd]
  have hsplit : (check settings source).diagnostics =
      (lex settings.comments source.toList).diagnostics ++
        (Grammar.parse (.ofThreshold settings.threshold)
          (lex settings.comments source.toList).tokens).findings.reverse := rfl
  rw [hsplit, List.countP_append, hlexed, List.countP_reverse, Nat.zero_add]

/-- **No function is lost or invented.** In the report of a check, whatever the source is, the
functions that are called like functions without a name are numbered from 0 without a gap;
none of these is said to be declared again; and there are no more entries and diagnostics
about functions declared again than words `function` in the source and names reported as
misspellings of this word. -/
theorem functions_accounted (settings : Settings) (source : String) :
    let report := check settings source
    (∃ lines : List (Option Nat),
        (report.functions.names.filter (Grammar.LooksAnonymous ·)).Perm
          (lines.mapIdx Grammar.Ledger.anonymousLabel)) ∧
      (∀ d ∈ report.diagnostics, ∀ name,
        d.message = "Function '" ++ name ++ "' defined multiple times" →
          ¬ Grammar.LooksAnonymous name) ∧
      report.functions.size + report.diagnostics.countP (·.IsRedefinition) ≤
        (lex settings.comments source.toList).tokens.countP (·.text = "function") +
          report.diagnostics.countP (·.IsFunctionTypo) := by
  intro report
  have h := Grammar.parse_accounted (.ofThreshold settings.threshold)
    (lex_isLexed settings.comments source.toList)
  refine ⟨?_, fun d hd name hname => ?_, ?_⟩
  · obtain ⟨lines, -, hperm⟩ := h.numbered
    exact ⟨lines, hperm⟩
  · rcases List.mem_append.mp hd with hd | hd
    · exact absurd ⟨name, hname⟩ (lex_not_about_functions hd).1
    · exact h.named d (List.mem_reverse.mp hd) name hname
  · have hwords := (Grammar.program_headers (.ofThreshold settings.threshold)
      (lex settings.comments source.toList).tokens).1
    have hredefined := countP_check settings source (p := (·.IsRedefinition))
      fun d hd => decide_eq_false (lex_not_about_functions hd).1
    have htypo := countP_check settings source (p := (·.IsFunctionTypo))
      fun d hd => decide_eq_false (lex_not_about_functions hd).2
    have hheaders := h.headers
    have htypos := h.typos
    rw [hredefined, htypo]
    change (Grammar.parse _ _).functions.size + _ ≤ Grammar.functionWords _ + _
    omega

end LuaChecker

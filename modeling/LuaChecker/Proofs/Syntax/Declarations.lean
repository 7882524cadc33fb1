import LuaChecker.Proofs.FunctionTable
import LuaChecker.Proofs.Syntax.Acceptance

/-!
# The functions of a program

The check of a program with a derivation knows its functions by the headers of the
derivation: which names and labels are declared, with which parameters, and which of them
are declared again.

* `Ledger.Tells`: a ledger tells what a list of headers says;
* `Ledger.Tells.record`: it goes on to do so with the next header;
* `tells_of_derives`: the parse of a program ends with such a ledger;
* `functions_of_program`: the table and the diagnostics of a program.
-/

namespace LuaChecker.Grammar

def anonymousCount (hs : List Header) : Nat :=
  hs.countP fun h => h.path = []

/-- The name of a function, or its label if it has no name. The headers `earlier` are those
in front of its own. -/
def Header.key (earlier : List Header) (h : Header) : String :=
  if h.path = [] then Ledger.anonymousLabel (anonymousCount earlier) (some h.line)
  else String.join h.path

/-- The headers behind `earlier`, each with its name or label. -/
def keyed (earlier : List Header) : List Header → List (String × Header)
  | [] => []
  | h :: hs => (h.key earlier, h) :: keyed (earlier ++ [h]) hs

/-- What is said about declarations behind `earlier`: one diagnostic for each whose name or
label is declared before. -/
def redeclared (earlier : List (String × Header)) : List (String × Header) → List Diagnostic
  | [] => []
  | d :: ds =>
    (if d.1 ∈ earlier.map (·.1) then
      [⟨some d.2.line, "Function '" ++ d.1 ++ "' defined multiple times"⟩]
    else []) ++ redeclared (earlier ++ [d]) ds

theorem keyed_append (earlier hs is : List Header) :
    keyed earlier (hs ++ is) = keyed earlier hs ++ keyed (earlier ++ hs) is := by
  induction hs generalizing earlier with
  | nil => simp [keyed]
  | cons h hs ih => simp [keyed, ih]

theorem redeclared_append (earlier ds es : List (String × Header)) :
    redeclared earlier (ds ++ es) = redeclared earlier ds ++ redeclared (earlier ++ ds) es := by
  induction ds generalizing earlier with
  | nil => simp [redeclared]
  | cons d ds ih => simp [redeclared, ih]

/-! ## Names of functions -/

namespace Form

/-- Whether every row of the form starts with a name. -/
def startsWithName : Form → Bool
  | ofKind .name => true
  | andThen f _ => f.startsWithName
  | _ => false

/-- Whether the functions in a row of the form have names that start with one, or no names. -/
def namesHeaders : Form → Bool
  | header .empty => true
  | header name => name.startsWithName
  | andThen f g | either f g => f.namesHeaders && g.namesHeaders
  | many f | whole f => f.namesHeaders
  | empty | word _ | oneOf _ | ofKind _ | exp | chunk => true

end Form

/-- A function that has a name has one that is not empty. -/
def Header.IsNamed (h : Header) : Prop :=
  h.path = [] ∨ String.join h.path ≠ ""

theorem Derives.starts_with_name {n : Nat} {f : Form} {ts us : List Token} {hs : List Header}
    (h : Derives n f ts us hs) (hf : f.startsWithName = true) :
    ∃ t rest, ts = t :: rest ∧ t.kind = .name ∧ us <:+ rest := by
  induction h with
  | @ofKind n kind t ts h =>
    cases kind with
    | name => exact ⟨t, ts, rfl, h, List.suffix_rfl⟩
    | _ => cases hf
  | andThen _ hg ih _ =>
    obtain ⟨t, rest, rfl, ht, hsuffix⟩ := ih hf
    exact ⟨t, rest, rfl, ht, hg.suffix.trans hsuffix⟩
  | _ => cases hf

theorem join_ne_empty {t : Token} {texts : List String} (ht : t.IsLexical)
    (hkind : t.kind = .name) : String.join (t.text :: texts) ≠ "" := by
  intro h
  rw [String.join_cons, String.append_eq_empty_iff] at h
  have hname := ht.name hkind
  rw [h.1] at hname
  cases hname

theorem Derives.isNamed {n : Nat} {f : Form} {ts us : List Token} {hs : List Header}
    (h : Derives n f ts us hs) (hf : f.namesHeaders = true) (hts : Lexical ts) :
    ∀ header ∈ hs, header.IsNamed := by
  induction h with
  | empty | word | oneOf | ofKind | manyNil => simp
  | andThen hleft _ ihf ihg =>
    simp only [Form.namesHeaders, Bool.and_eq_true] at hf
    exact List.forall_mem_append.mpr ⟨ihf hf.1 hts, ihg hf.2 (hleft.lexical hts)⟩
  | left _ ih =>
    simp only [Form.namesHeaders, Bool.and_eq_true] at hf
    exact ih hf.1 hts
  | right _ ih =>
    simp only [Form.namesHeaders, Bool.and_eq_true] at hf
    exact ih hf.2 hts
  | manyCons hleft _ ihf ihg =>
    exact List.forall_mem_append.mpr ⟨ihf hf hts, ihg hf (hleft.lexical hts)⟩
  | whole _ _ ih => exact ih hf hts
  | @header n name path opening inside closing rest hname =>
    rw [List.forall_mem_singleton]
    cases path with
    | nil => exact .inl rfl
    | cons first path =>
      have hstarts : name.startsWithName = true := by
        cases name with
        | empty =>
          have hlength := congrArg List.length (derives_empty.mp hname).1
          simp only [List.length_append, List.length_cons] at hlength
          omega
        | _ => exact hf
      obtain ⟨t, rest', heq, ht, -⟩ := hname.starts_with_name hstarts
      obtain ⟨rfl, -⟩ := List.cons.inj heq
      exact .inr (join_ne_empty hts.head ht)
  | exp _ ih => exact ih rfl hts
  | chunk _ ih => exact ih rfl hts

/-! ## What a ledger tells -/

/-- A ledger tells what the headers say so far. -/
structure Ledger.Tells (l : Ledger) (earlier : List Header) : Prop where
  anonymous : l.anonymous = anonymousCount earlier
  ordered : l.functions.IsOrdered
  /-- The last header with a name or label counts. -/
  params : ∀ key, l.functions.params? key =
    ((keyed [] earlier).reverse.lookup key).map Header.parameters
  diagnostics : l.diagnostics = redeclared [] (keyed [] earlier)

theorem Ledger.tells_initial : Ledger.initial.Tells [] :=
  ⟨rfl, FunctionTable.isOrdered_empty, fun _ => rfl, rfl⟩

theorem Ledger.record_header {l : Ledger} {earlier : List Header} {h : Header}
    (hnamed : h.IsNamed) (hl : l.anonymous = anonymousCount earlier) :
    l.record (.header (some h.line) (String.join h.path)) =
      { l with anonymous := anonymousCount (earlier ++ [h]) }.declare (some h.line)
        (h.key earlier) := by
  have hcount : anonymousCount (earlier ++ [h]) =
      l.anonymous + if h.path = [] then 1 else 0 := by
    simp [anonymousCount, hl, List.countP_append]
  rw [hcount]
  by_cases hpath : h.path = []
  · simp [Ledger.record, Header.key, hpath, hl]
  · have hname : String.join h.path ≠ "" := hnamed.resolve_left hpath
    simp [Ledger.record, Header.key, hpath, hname]

/-- The parameters of a function go to the entry that is declared last. -/
theorem Ledger.record_parameters (l : Ledger) (names : List String) (variadic : Bool) :
    let l' := (parameterEvents names variadic).foldl Ledger.record l
    l'.anonymous = l.anonymous ∧ l'.findings = l.findings ∧
      (l.functions.IsOrdered → l'.functions.IsOrdered) ∧
      ∀ key, l'.functions.params? key =
        if key = l.current then (l.functions.params? key).map
          (· ++ (names ++ if variadic then [FunctionTable.variadic] else []))
        else l.functions.params? key := by
  unfold parameterEvents
  cases variadic with
  | true =>
    simp only [Bool.not_true, Bool.and_false, Bool.false_eq_true, if_false, if_true,
      List.foldl_cons, List.foldl_nil, Ledger.record, true_and]
    refine ⟨fun h => h.addParams.addParams, fun key => ?_⟩
    rw [FunctionTable.markVariadic, FunctionTable.params?_addParams,
      FunctionTable.params?_addParams]
    split
    · simp [Option.map_map, Function.comp_def]
    · rfl
  | false =>
    by_cases hnames : names = []
    · subst hnames
      simp
    · have hsome : (names.isEmpty && !false) = false := by simpa using hnames
      simp only [hsome, Bool.false_eq_true, if_false, List.foldl_cons, List.foldl_nil,
        Ledger.record, true_and]
      refine ⟨fun h => h.addParams, fun key => ?_⟩
      rw [FunctionTable.params?_addParams, List.append_nil]

theorem Ledger.declare_anonymous (l : Ledger) (line : Option Nat) (label : String) :
    (l.declare line label).anonymous = l.anonymous := by
  unfold Ledger.declare
  split
  · rfl
  · rfl

theorem Ledger.declare_diagnostics (l : Ledger) (line : Option Nat) (label : String) :
    (l.declare line label).diagnostics = l.diagnostics ++
      if l.functions.contains label then
        [⟨line, "Function '" ++ label ++ "' defined multiple times"⟩]
      else [] := by
  unfold Ledger.declare
  split
  · exact List.reverse_cons
  · exact (List.append_nil _).symm

/-- The functions of the table are those that a header declares. -/
theorem Ledger.Tells.isSome_params?_iff {l : Ledger} {earlier : List Header}
    (htells : l.Tells earlier) (key : String) :
    (l.functions.params? key).isSome = true ↔ key ∈ (keyed [] earlier).map (·.1) := by
  rw [htells.params, Option.isSome_map, FunctionTable.isSome_lookup_iff, List.map_reverse,
    List.mem_reverse]

theorem Ledger.Tells.record {l : Ledger} {earlier : List Header} {h : Header}
    (htells : l.Tells earlier) (hnamed : h.IsNamed) :
    (h.events.foldl Ledger.record l).Tells (earlier ++ [h]) := by
  have hkeyed : keyed [] (earlier ++ [h]) = keyed [] earlier ++ [(h.key earlier, h)] := by
    rw [keyed_append]
    rfl
  have hcontains : l.functions.contains (h.key earlier) = true ↔
      h.key earlier ∈ (keyed [] earlier).map (·.1) :=
    FunctionTable.contains_iff.trans (htells.isSome_params?_iff _)
  obtain ⟨hanonymous, hfindings, hordered, hparams⟩ := Ledger.record_parameters
    ({ l with anonymous := anonymousCount (earlier ++ [h]) }.declare (some h.line) (h.key earlier))
    h.names h.variadic
  rw [Header.events, List.foldl_cons, Ledger.record_header hnamed htells.anonymous]
  refine ⟨?_, hordered htells.ordered.declare, fun key => ?_, ?_⟩
  · rw [hanonymous, Ledger.declare_anonymous]
  · rw [hparams, hkeyed, List.reverse_append, List.reverse_singleton, List.singleton_append,
      FunctionTable.lookup_entry]
    show (if key = h.key earlier then
        ((l.functions.declare (h.key earlier)).params? key).map (· ++ h.parameters)
      else (l.functions.declare (h.key earlier)).params? key) = _
    rw [FunctionTable.params?_declare]
    by_cases hkey : key = h.key earlier
    · simp [hkey]
    · rw [if_neg hkey, if_neg hkey, if_neg hkey, htells.params]
  · rw [Ledger.diagnostics, hfindings, ← Ledger.diagnostics, Ledger.declare_diagnostics, hkeyed,
      redeclared_append, ← htells.diagnostics]
    simp only [redeclared, List.nil_append, List.append_nil, ← hcontains]
    rfl

theorem Ledger.Tells.foldl {l : Ledger} {earlier : List Header} (htells : l.Tells earlier)
    (hs : List Header) (hnamed : ∀ h ∈ hs, h.IsNamed) :
    ((headerEvents hs).foldl Ledger.record l).Tells (earlier ++ hs) := by
  induction hs generalizing l earlier with
  | nil => simpa using htells
  | cons h hs ih =>
    obtain ⟨hfirst, hrest⟩ := List.forall_mem_cons.mp hnamed
    have hnext := ih (htells.record hfirst) hrest
    rw [headerEvents_cons, List.foldl_append]
    simpa using hnext

/-! ## Programs -/

/-- The parse of a program leads to a ledger that tells all of its headers. -/
theorem tells_of_derives (speller : Speller) {ts : List Token} {hs : List Header}
    (hts : Lexical ts) (h : Derives 200 .chunk ts [] hs) : (parse speller ts).Tells hs := by
  have htells := Ledger.tells_initial.foldl hs (h.isNamed rfl hts)
  rw [parse_eq, (program_reads_of_derives speller hts h).eq]
  exact htells

/-- **The functions of a program.** For tokens as the lexer yields them that have a
derivation, the table has an entry for each name or label of a header, with the parameters
of the last header that has it; and the diagnostics are about the headers whose name or
label an earlier one has. -/
theorem functions_of_program (threshold : Float) {ts : List Token} {hs : List Header}
    (hts : Lexical ts) (h : Derives 200 .chunk ts [] hs) :
    (checkTokens threshold ts).functions.names.Pairwise (· < ·) ∧
      (∀ key, key ∈ (checkTokens threshold ts).functions.names ↔
        key ∈ (keyed [] hs).map (·.1)) ∧
      (∀ key, (checkTokens threshold ts).functions.params? key =
        ((keyed [] hs).reverse.lookup key).map Header.parameters) ∧
      (checkTokens threshold ts).diagnostics = redeclared [] (keyed [] hs) := by
  have htells := tells_of_derives (.ofThreshold threshold) hts h
  refine ⟨htells.ordered, fun key => ?_, htells.params, htells.diagnostics⟩
  exact FunctionTable.mem_names_iff.trans (htells.isSome_params?_iff key)

def functionTokens : List Token :=
  [⟨1, 0, 8, .keyword, "function"⟩, ⟨1, 9, 1, .name, "f"⟩, ⟨1, 10, 1, .symbol, "("⟩,
    ⟨1, 11, 1, .name, "a"⟩, ⟨1, 12, 1, .symbol, ")"⟩, ⟨1, 14, 3, .keyword, "end"⟩]

theorem derives_functionHeader :
    Derives 199 (.header .functionName) (functionTokens.drop 1) (functionTokens.drop 5)
      [⟨["f"], 1, ["a"], false⟩] := by
  have hfirst : Derives 199 .name (functionTokens.drop 1) (functionTokens.drop 2) [] := .ofKind rfl
  have hname : Derives 199 .functionName (functionTokens.drop 1) (functionTokens.drop 2) [] :=
    .andThen hfirst (.andThen .manyNil (.right .empty))
  have hparameter : Derives 199 .name (functionTokens.drop 3) (functionTokens.drop 4) [] :=
    .ofKind rfl
  have hinside : Derives 199 .parameters (functionTokens.drop 3) (functionTokens.drop 4) [] :=
    .left (.right (.andThen (.andThen hparameter .manyNil) (.right .empty)))
  exact @Derives.header 199 .functionName [⟨1, 9, 1, .name, "f"⟩] ⟨1, 10, 1, .symbol, "("⟩
    [⟨1, 11, 1, .name, "a"⟩] ⟨1, 12, 1, .symbol, ")"⟩ _ hname rfl hinside rfl

theorem derives_functionTokens :
    Derives 200 .chunk functionTokens [] [⟨["f"], 1, ["a"], false⟩] := by
  have hword : Derives 199 (.word "function") functionTokens (functionTokens.drop 1) [] :=
    .word rfl
  have hempty : Derives 199 .chunk (functionTokens.drop 5) (functionTokens.drop 5) [] :=
    .chunk (.andThen .manyNil (.right .empty))
  have hend : Derives 199 (.word "end") (functionTokens.drop 5) [] [] := .word rfl
  have hbody : Derives 199 (Form.functionBody .functionName) (functionTokens.drop 1) []
      [⟨["f"], 1, ["a"], false⟩] :=
    .andThen derives_functionHeader (.andThen hempty hend)
  have hstatement : Derives 199 .statement functionTokens [] [⟨["f"], 1, ["a"], false⟩] :=
    .right (.right (.right (.right (.right (.right (.right (.left (.andThen hword hbody))))))))
  exact .chunk (.andThen (.manyCons (.andThen hstatement (.right .empty)) .manyNil)
    (.right .empty))

theorem functions_of_functionTokens :
    Derives 200 .chunk functionTokens [] [⟨["f"], 1, ["a"], false⟩] ∧
      (checkTokens 0.5 functionTokens).functions.params? "f" = some ["a"] ∧
      (checkTokens 0.5 functionTokens).diagnostics = [] := by
  obtain ⟨-, -, hparams, hdiagnostics⟩ :=
    functions_of_program 0.5 (by decide) derives_functionTokens
  exact ⟨derives_functionTokens, hparams "f", hdiagnostics⟩

end LuaChecker.Grammar

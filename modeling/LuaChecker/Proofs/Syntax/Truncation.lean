import LuaChecker.Proofs.Syntax.Declarations
import LuaChecker.Proofs.Syntax.Interruption

/-!
# Programs that are cut off

A program may be cut off inside a block, between two of its statements. What is left of it is
checked like the program up to the cut, and then there is one more diagnostic: the block is
not closed.

* `program_stops`: the parse of what is left stops;
* `checkTokens_breaksOff`: what the check says about rows that break off;
* `truncation_reported_once`: what it says about a program that is cut off.
-/

namespace LuaChecker.Grammar

variable {ts : List Token} {hs is : List Header}

theorem program_stops (speller : Speller) (hts : Lexical ts)
    (h : BreaksOff 200 [] .chunk ts hs) : Stops speller program ts hs :=
  (stops_nested maxLevels).chunk hts h

/-- The headers of the whole functions and of those that break off are told, and then that
the block is not closed. -/
theorem checkTokens_breaksOff (threshold : Float) (hts : Lexical ts)
    (h : BreaksOff 200 [] .chunk ts hs) (hnamed : ∀ header ∈ hs, header.IsNamed) :
    ∃ l : Ledger, l.Tells hs ∧ checkTokens threshold ts =
      ⟨redeclared [] (keyed [] hs) ++ [⟨none, "Scope not closed"⟩], l.functions⟩ := by
  have htells := Ledger.tells_initial.foldl hs hnamed
  refine ⟨_, htells, ?_⟩
  have hledger : parse (.ofThreshold threshold) ts =
      ((headerEvents hs).foldl Ledger.record .initial).report none .notClosed := by
    rw [parse_eq, (program_stops _ hts h).eq, Ledger.ofEvents_append]
    rfl
  have hdiagnostics := htells.diagnostics
  rw [List.nil_append] at hdiagnostics
  rw [checkTokens, hledger, ← hdiagnostics, Ledger.diagnostics, Ledger.diagnostics,
    ← List.reverse_cons]
  rfl

/-- No function is declared again in front of a place if none is in the whole program. -/
theorem redeclared_front (threshold : Float) (hts : Lexical ts)
    (h : Derives 200 .chunk ts [] (hs ++ is))
    (hclean : (checkTokens threshold ts).diagnostics = []) : redeclared [] (keyed [] hs) = [] := by
  have hall : redeclared [] (keyed [] (hs ++ is)) = [] := by
    rw [← hclean]
    exact (tells_of_derives (.ofThreshold threshold) hts h).diagnostics.symm
  rw [keyed_append, redeclared_append] at hall
  exact (List.append_eq_nil_iff.mp hall).1

/-- **Programs that are cut off.** Tokens as the lexer yields them make a program about which
the check says nothing. If they are cut off in a block that a word has to close, behind whole
statements of it or in front of its first one, the check says that a block is not closed, and
nothing else; and it knows the functions whose headers are in front of the cut, and no
others. -/
theorem truncation_reported_once (threshold : Float) {front post : List Token}
    (hts : Lexical (front ++ post))
    (hclean : (checkTokens threshold (front ++ post)).diagnostics = [])
    (hcut : CutAt post 200 [] .chunk (front ++ post) [] hs) :
    (checkTokens threshold front).diagnostics = [⟨none, "Scope not closed"⟩] ∧
      (checkTokens threshold front).functions.names.Pairwise (· < ·) ∧
      (∀ key, key ∈ (checkTokens threshold front).functions.names ↔
        key ∈ (keyed [] hs).map (·.1)) ∧
      ∀ key, (checkTokens threshold front).functions.params? key =
        ((keyed [] hs).reverse.lookup key).map Header.parameters := by
  obtain ⟨front', is, heq, hderives, hbreaks⟩ := hcut.breaksOff
  obtain rfl := List.append_cancel_right heq
  have hnamed := (List.forall_mem_append.mp (hderives.isNamed rfl hts)).1
  obtain ⟨l, htells, hcheck⟩ :=
    checkTokens_breaksOff threshold (List.forall_mem_append.mp hts).1 hbreaks hnamed
  rw [hcheck, redeclared_front threshold hts hderives hclean]
  refine ⟨rfl, htells.ordered, fun key => ?_, htells.params⟩
  exact FunctionTable.mem_names_iff.trans (htells.isSome_params?_iff key)

theorem cutAt_functionTokens :
    CutAt (functionTokens.drop 5) 200 [] .chunk functionTokens []
      [⟨["f"], 1, ["a"], false⟩] := by
  have hword : Derives 199 (.word "function") functionTokens (functionTokens.drop 1) [] :=
    .word rfl
  have hempty : Derives 198 .statements (functionTokens.drop 5) (functionTokens.drop 5) [] :=
    .andThen .manyNil (.right .empty)
  have hbody : CutAt (functionTokens.drop 5) 199 [.endWord] .chunk (functionTokens.drop 5)
      (functionTokens.drop 5) [] := .inside (List.cons_ne_nil _ _) hempty hempty
  have hfunction : CutAt (functionTokens.drop 5) 199 [] (Form.functionBody .functionName)
      (functionTokens.drop 1) [] [⟨["f"], 1, ["a"], false⟩] :=
    .second derives_functionHeader (.first hbody (.word rfl))
  have hstatement : CutAt (functionTokens.drop 5) 199 [] .statement functionTokens []
      [⟨["f"], 1, ["a"], false⟩] :=
    .right (.right (.right (.right (.right (.right (.right (.left (.second hword hfunction))))))))
  exact .chunk (.first (.member (.first hstatement (.right .empty)) .manyNil) (.right .empty))

theorem diagnostics_functionTokens : (checkTokens 0.5 functionTokens).diagnostics = [] := by
  have hread := program_reads_of_derives (.ofThreshold 0.5) (by decide) derives_functionTokens
  rw [checkTokens, parse_eq, hread.eq]
  rfl

theorem truncation_reported_once_functionTokens :
    Lexical functionTokens ∧ (checkTokens 0.5 functionTokens).diagnostics = [] ∧
      CutAt (functionTokens.drop 5) 200 [] .chunk functionTokens []
        [⟨["f"], 1, ["a"], false⟩] ∧
      (checkTokens 0.5 (functionTokens.take 5)).diagnostics = [⟨none, "Scope not closed"⟩] ∧
      (checkTokens 0.5 (functionTokens.take 5)).functions.params? "f" = some ["a"] := by
  obtain ⟨hdiagnostics, -, -, hparams⟩ := @truncation_reported_once
    [⟨["f"], 1, ["a"], false⟩] 0.5 (functionTokens.take 5) (functionTokens.drop 5) (by decide)
    diagnostics_functionTokens cutAt_functionTokens
  exact ⟨by decide, diagnostics_functionTokens, cutAt_functionTokens, hdiagnostics, hparams "f"⟩

end LuaChecker.Grammar

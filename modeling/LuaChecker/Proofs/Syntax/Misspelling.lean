import LuaChecker.Proofs.Syntax.Boundary

/-!
# Misspelt words of statements

A word that starts a statement or closes a block may be misspelt. Where the misspelling is
recognised, the check says so and goes on as if the word had been there.

* `misspelt_word_recovered`: the check of a program with a misspelt word.
-/

namespace LuaChecker.Grammar

/-- **Misspelt words.** A name takes the place of a word that starts a statement, or that
closes a block without `return` and `break`, in a program about which the check says nothing.
If the name is on the same line and a misspelling of that word, this is all that the check
says, and it knows the same functions as before. -/
theorem misspelt_word_recovered (threshold : Float) {front post : List Token}
    {word found : Token} {closers : List Closer} (hts : Lexical (front ++ word :: post))
    (hclean : (checkTokens threshold (front ++ word :: post)).diagnostics = [])
    (hplace : Boundary closers (word :: post) 200 [] .chunk (front ++ word :: post) [])
    (hfound : found.IsLexical) (hline : found.line = word.line)
    (hmisspelt : Misspelling (.ofThreshold threshold) closers found word post) :
    checkTokens threshold (front ++ found :: post) =
      ⟨[⟨some word.line,
        "Typo in '" ++ found.text ++ "' - should probably be '" ++ word.text ++ "'"⟩],
        (checkTokens threshold (front ++ word :: post)).functions⟩ := by
  rw [(hplace.recovered hfound hmisspelt).checkTokens_eq hts hfound hclean, hline]
  rfl

def doToken : Token := ⟨1, 0, 2, .keyword, "do"⟩

def endToken : Token := ⟨1, 3, 3, .keyword, "end"⟩

/-- A misspelling of `endToken`. -/
def endeToken : Token := ⟨1, 3, 4, .name, "ende"⟩

theorem derives_doEnd : Derives 200 .chunk [doToken, endToken] [] [] := by
  have hdo : Derives 199 (.word "do") [doToken, endToken] [endToken] [] := .word rfl
  have hend : Derives 199 (.word "end") [endToken] [] [] := .word rfl
  have hblock : Derives 199 .chunk [endToken] [endToken] [] :=
    .chunk (.andThen .manyNil (.right .empty))
  have hstatement : Derives 199 .statementRow [doToken, endToken] [] [] :=
    .andThen (.right (.right (.left (.andThen hdo (.andThen hblock hend))))) (.right .empty)
  exact .chunk (.andThen (.manyCons hstatement .manyNil) (.right .empty))

theorem boundary_doEnd :
    Boundary [.endWord] [endToken] 200 [] .chunk [doToken, endToken] [] := by
  have hblock : Boundary [.endWord] [endToken] 199 [.endWord] .chunk [endToken] [endToken] :=
    .chunk (.first (.here .manyNil) (.right .empty))
  have hstatement : Boundary [.endWord] [endToken] 199 [] .statementRow [doToken, endToken] [] :=
    .first (.right (.right (.left (.second (.word rfl) (.first hblock (.word rfl))))))
      (.right .empty)
  exact .chunk (.first (.member hstatement .manyNil) (.right .empty))

theorem diagnostics_doEnd : (checkTokens 0.5 [doToken, endToken]).diagnostics = [] := by
  have hread := program_reads_of_derives (.ofThreshold 0.5) (by decide) derives_doEnd
  rw [checkTokens, parse_eq, hread.eq]
  rfl

theorem misspelling_ende :
    Misspelling (.ofThreshold 0.5) [.endWord] endeToken endToken [] where
  kind := rfl
  lexical := by decide
  noSuffix := rfl
  noTarget := .nil
  word := .inl ⟨.endWord, by decide +kernel, rfl⟩

theorem misspelt_word_recovered_ende :
    Lexical [doToken, endToken] ∧ (checkTokens 0.5 [doToken, endToken]).diagnostics = [] ∧
      Boundary [.endWord] [endToken] 200 [] .chunk [doToken, endToken] [] ∧
      endeToken.IsLexical ∧ endeToken.line = endToken.line ∧
      Misspelling (.ofThreshold 0.5) [.endWord] endeToken endToken [] ∧
      checkTokens 0.5 [doToken, endeToken] =
        ⟨[⟨some 1, "Typo in 'ende' - should probably be 'end'"⟩],
          (checkTokens 0.5 [doToken, endToken]).functions⟩ :=
  ⟨by decide, diagnostics_doEnd, boundary_doEnd, by decide, rfl, misspelling_ende,
    @misspelt_word_recovered 0.5 [doToken] [] endToken endeToken [.endWord] (by decide)
      diagnostics_doEnd boundary_doEnd (by decide) rfl misspelling_ende⟩

end LuaChecker.Grammar

import LuaChecker.Proofs.Syntax.Exchange

/-!
# Misspelt separators

The words `then`, `do` and `in` stand between two parts of a statement. Where one of them is
misspelt, the part in front of it ends all the same, since a name goes on with nothing; the
name is read as the word, and the check says that the word is not there.

* `SeparatorAt`: derivations that go through such a word;
* `SeparatorAt.recovered`: where such a word is misspelt, it is recovered;
* `misspelt_separator_recovered`: the check of a program with a misspelt separator.
-/

namespace LuaChecker.Grammar

/-- `SeparatorAt s word post n f ts rest`: a derivation of the form `f` from `ts` to `rest` goes
through two parts of a statement with the separator `s` between them; `word` is its token, and
`post` are the tokens behind it. -/
inductive SeparatorAt (s : Separator) (word : Token) (post : List Token) :
    Nat → Form → List Token → List Token → Prop
  | here {n ts us hs is} (hfront : Derives n s.front ts (word :: post) hs)
      (hword : word.text = s.text) (hback : Derives n s.back post us is) :
      SeparatorAt s word post n s.form ts us
  | first {n f g ts us vs hs} (hf : SeparatorAt s word post n f ts us)
      (hg : Derives n g us vs hs) : SeparatorAt s word post n (.andThen f g) ts vs
  | second {n f g ts us vs hs} (hf : Derives n f ts us hs)
      (hg : SeparatorAt s word post n g us vs) : SeparatorAt s word post n (.andThen f g) ts vs
  | left {n f g ts us} (h : SeparatorAt s word post n f ts us) :
      SeparatorAt s word post n (.either f g) ts us
  | right {n f g ts us} (h : SeparatorAt s word post n g ts us) :
      SeparatorAt s word post n (.either f g) ts us
  | member {n f ts us vs hs} (hf : SeparatorAt s word post n f ts us)
      (hg : Derives n (.many f) us vs hs) : SeparatorAt s word post n (.many f) ts vs
  | later {n f ts us vs hs} (hf : Derives n f ts us hs)
      (hg : SeparatorAt s word post n (.many f) us vs) : SeparatorAt s word post n (.many f) ts vs
  | whole {n f ts us} (h : SeparatorAt s word post n f ts us)
      (hend : startsSuffix us.head? = false) : SeparatorAt s word post n (.whole f) ts us
  | exp {n ts us} (h : SeparatorAt s word post n .operands ts us) :
      SeparatorAt s word post (n + 1) .exp ts us
  | chunk {n ts us} (h : SeparatorAt s word post n .statements ts us) :
      SeparatorAt s word post (n + 1) .chunk ts us

variable {speller : Speller} {s : Separator} {n : Nat} {b : List Closer} {f : Form}
  {ts us post : List Token} {word found : Token}

theorem SeparatorAt.recovered (h : SeparatorAt s word post n f ts us) (hfound : found.IsLexical)
    (htypo : SeparatorTypo speller s found) :
    Recovered speller word found post (missingEvent s found) n b f ts us := by
  induction h generalizing b with
  | @here n ts us hs is hfront hword hback =>
    have hbefore : Derives n s.front ts ([] ++ word :: post) hs := hfront
    obtain ⟨front, rfl, hfront'⟩ := hbefore.before_name hfound htypo.kind
    refine ⟨front, hs, is, rfl, ?_, ?_⟩
    · exact .andThen hfront (.andThen (.word hword) hback)
    · exact .separated s htypo (hfront'.means speller _) (hback.means speller b)
  | first _ hg ih => exact ih.andThen_first hg
  | second hf _ ih => exact ih.andThen_second hf hfound htypo.kind
  | left _ ih => exact ih.left
  | right _ ih => exact ih.right
  | member _ hg ih => exact ih.many_first hg
  | later hf _ ih => exact ih.many_later hf hfound htypo.kind
  | whole _ hend ih => exact ih.whole hend
  | exp _ ih => exact ih.exp
  | chunk _ ih => exact ih.chunk

/-! ## Programs with a misspelt separator -/

/-- **Misspelt separators.** A name takes the place of the `then` of an `if` or `elseif`, of the
`do` of a `while` or `for`, or of the `in` of a `for`, in a program about which the check says
nothing. If the name is on the same line and a misspelling of that word, the check says that
the word is not there, and nothing else; and it knows the same functions as before. -/
theorem misspelt_separator_recovered (threshold : Float) {s : Separator}
    {front post : List Token} {word found : Token} (hts : Lexical (front ++ word :: post))
    (hclean : (checkTokens threshold (front ++ word :: post)).diagnostics = [])
    (hplace : SeparatorAt s word post 200 .chunk (front ++ word :: post) [])
    (hfound : found.IsLexical) (hname : found.kind = .name) (hline : found.line = word.line)
    (htypo : Similarity.isTypoOf found.text s.text threshold = true) :
    checkTokens threshold (front ++ found :: post) =
      ⟨[⟨some word.line,
        "'" ++ found.text ++ "' not expected. '" ++ s.text ++ "' " ++ s.place.detail⟩],
        (checkTokens threshold (front ++ word :: post)).functions⟩ := by
  have hmisspelt : SeparatorTypo (.ofThreshold threshold) s found := ⟨hname, htypo⟩
  rw [(hplace.recovered hfound hmisspelt).checkTokens_eq hts hfound hclean, hline]
  rfl

def whileTokens : List Token :=
  [⟨1, 0, 5, .keyword, "while"⟩, ⟨1, 6, 1, .name, "x"⟩, ⟨2, 8, 2, .keyword, "do"⟩,
    ⟨2, 11, 3, .keyword, "end"⟩]

/-- A misspelling of the third token of `whileTokens`. -/
def dooToken : Token := ⟨2, 8, 3, .name, "doo"⟩

theorem derives_whileCondition :
    Derives 199 .exp (whileTokens.drop 1) (whileTokens.drop 2) [] := by
  have hname : Derives 198 .name (whileTokens.drop 1) (whileTokens.drop 2) [] := .ofKind rfl
  have hprefix : Derives 198 .prefixExp (whileTokens.drop 1) (whileTokens.drop 2) [] :=
    .andThen (.left hname) .manyNil
  exact .exp (.andThen (.andThen .manyNil (.right (.right (.right (.right (.right
    (.whole hprefix rfl))))))) .manyNil)

theorem derives_whileBody :
    Derives 199 (.row [.chunk, .word "end"]) (whileTokens.drop 3) [] [] := by
  have hblock : Derives 199 .chunk (whileTokens.drop 3) (whileTokens.drop 3) [] :=
    .chunk (.andThen .manyNil (.right .empty))
  have hend : Derives 199 (.word "end") (whileTokens.drop 3) [] [] := .word rfl
  exact .andThen hblock hend

theorem separatorAt_whileTokens :
    SeparatorAt .whileDo ⟨2, 8, 2, .keyword, "do"⟩ (whileTokens.drop 3) 200 .chunk whileTokens
      [] := by
  have hwhile : Derives 199 (.word "while") whileTokens (whileTokens.drop 1) [] := .word rfl
  have hparts : SeparatorAt .whileDo ⟨2, 8, 2, .keyword, "do"⟩ (whileTokens.drop 3) 199
      Separator.whileDo.form (whileTokens.drop 1) [] :=
    .here derives_whileCondition rfl derives_whileBody
  have hstatement : SeparatorAt .whileDo ⟨2, 8, 2, .keyword, "do"⟩ (whileTokens.drop 3) 199
      .statementRow whileTokens [] :=
    .first (.right (.right (.right (.left (.second hwhile hparts))))) (.right .empty)
  exact .chunk (.first (.member hstatement .manyNil) (.right .empty))

theorem derives_whileTokens : Derives 200 .chunk whileTokens [] [] := by
  have hwhile : Derives 199 (.word "while") whileTokens (whileTokens.drop 1) [] := .word rfl
  have hdo : Derives 199 (.word "do") (whileTokens.drop 2) (whileTokens.drop 3) [] := .word rfl
  have hstatement : Derives 199 .statementRow whileTokens [] [] :=
    .andThen (.right (.right (.right (.left (.andThen hwhile (.andThen derives_whileCondition
      (.andThen hdo derives_whileBody))))))) (.right .empty)
  exact .chunk (.andThen (.manyCons hstatement .manyNil) (.right .empty))

theorem diagnostics_whileTokens : (checkTokens 0.5 whileTokens).diagnostics = [] := by
  have hread := program_reads_of_derives (.ofThreshold 0.5) (by decide) derives_whileTokens
  rw [checkTokens, parse_eq, hread.eq]
  rfl

theorem misspelt_separator_recovered_doo :
    Lexical whileTokens ∧ (checkTokens 0.5 whileTokens).diagnostics = [] ∧
      SeparatorAt .whileDo ⟨2, 8, 2, .keyword, "do"⟩ (whileTokens.drop 3) 200 .chunk whileTokens
        [] ∧
      dooToken.IsLexical ∧ dooToken.kind = .name ∧ dooToken.line = 2 ∧
      Similarity.isTypoOf "doo" "do" 0.5 = true ∧
      checkTokens 0.5 (whileTokens.take 2 ++ dooToken :: whileTokens.drop 3) =
        ⟨[⟨some 2, "'doo' not expected. 'do' not found after 'while'"⟩],
          (checkTokens 0.5 whileTokens).functions⟩ := by
  have htypo : Similarity.isTypoOf "doo" "do" 0.5 = true := by decide +kernel
  exact ⟨by decide, diagnostics_whileTokens, separatorAt_whileTokens, by decide, rfl, rfl, htypo,
    @misspelt_separator_recovered 0.5 .whileDo (whileTokens.take 2) (whileTokens.drop 3)
      ⟨2, 8, 2, .keyword, "do"⟩ dooToken (by decide) diagnostics_whileTokens
      separatorAt_whileTokens (by decide) rfl rfl htypo⟩

end LuaChecker.Grammar

import LuaChecker.Proofs.Lexing.Lookahead

/-!
# Printing tokens and reading them again

The tokens of a source without diagnostics may be written down with one space between each
two of them. Such a text is read back as the same tokens, whether comments are skipped or
not: each token ends at the space behind it and at nothing before, and no two of them make a
longer one or a comment.

* `standsAlone_of_mem`: a token without flaws is read again before every space;
* `pieces_spaced`: tokens of that sort with spaces between them are read one by one;
* `map_text_tokens`: without diagnostics, the texts of the tokens are what the tokens cover;
* `lex_printed`: the printed tokens are read back.
-/

namespace LuaChecker

/-- What a token says, wherever it stands. -/
def Token.lexeme (t : Token) : Kind × String := (t.kind, t.text)

/-- The texts of tokens, with one space between each two of them. -/
def printed (tokens : List Token) : List Char :=
  [' '].intercalate (tokens.map fun t => t.text.toList)

namespace Piece

/-- What the token says that a piece stands for, if it stands for one. -/
def lexeme? (p : Piece) : Option (Kind × String) :=
  match p.content with
  | .token kind text => some (kind, String.ofList text)
  | _ => none

theorem lexeme?_isSome {p : Piece} (h : p.lexeme?.isSome = true) :
    ∃ kind text, p.content = .token kind text := by
  unfold lexeme? at h
  split at h
  · rename_i kind text hcontent
    exact ⟨kind, text, hcontent⟩
  · cases h

/-! ## Tokens that stand alone -/

/-- The piece is read wherever its characters stand before white space or nothing. -/
def StandsAlone (p : Piece) : Prop :=
  ∀ comments after, (∀ c ∈ after.head?, Text.isBlank c = true) →
    scan comments p.head (p.tail ++ after) = p

/-- What is read from a text, piece by piece. -/
theorem exists_scan_of_mem_pieces {comments : Bool} {source : List Char} {p : Piece}
    (h : p ∈ pieces comments source) :
    ∃ head tail after, p = scan comments head (tail ++ after) ∧ p.tail = tail := by
  rw [← map_piece_placedPieces] at h
  obtain ⟨placed, hplaced, rfl⟩ := List.mem_map.mp h
  obtain ⟨front, head, text, -, rfl⟩ := exists_scan_of_mem hplaced
  obtain ⟨after, hafter⟩ := scan_tail_isPrefix comments head text
  exact ⟨head, _, after, by rw [hafter], rfl⟩

theorem standsAlone_of_mem {comments : Bool} {source : List Char} {p : Piece}
    (h : p ∈ pieces comments source) (hclean : p.flaws = []) (htoken : p.lexeme?.isSome = true) :
    p.StandsAlone := by
  intro comments' after' hapart
  obtain ⟨head, tail, after, rfl, htail⟩ := exists_scan_of_mem_pieces h
  obtain ⟨kind, text, hcontent⟩ := lexeme?_isSome htoken
  rw [scan_head, htail]
  exact scan_token_again hapart hcontent hclean htail comments'

/-! ## Tokens with spaces between them -/

theorem StandsAlone.pieces_append {p : Piece} (h : p.StandsAlone) (comments : Bool)
    {after : List Char} (hapart : ∀ c ∈ after.head?, Text.isBlank c = true) :
    pieces comments (p.source ++ after) = p :: pieces comments after := by
  have hscan := h comments after hapart
  have htail : (scan comments p.head (p.tail ++ after)).tail = p.tail := by rw [hscan]
  rw [source, List.cons_append, pieces_of_tail htail, hscan]

theorem pieces_spaced {ps : List Piece} (h : ∀ p ∈ ps, p.StandsAlone) (comments : Bool) :
    pieces comments ([' '].intercalate (ps.map source)) =
      ps.intersperse (ofBlank ' ') := by
  induction ps with
  | nil => exact pieces_nil comments
  | cons p ps ih =>
    obtain ⟨hp, hps⟩ := List.forall_mem_cons.mp h
    cases ps with
    | nil =>
      have halone : pieces comments (p.source ++ []) = p :: pieces comments [] :=
        hp.pieces_append comments (by simp)
      rw [List.append_nil, pieces_nil] at halone
      rw [List.map_singleton, List.intercalate_singleton, halone, List.intersperse_singleton]
    | cons q qs =>
      have hapart : ∀ c ∈ (' ' :: [' '].intercalate ((q :: qs).map source)).head?,
          Text.isBlank c = true := by
        intro c hc
        cases hc
        decide
      rw [List.map_cons, List.map_cons, List.intercalate_cons_cons, List.append_assoc,
        List.singleton_append, ← List.map_cons, hp.pieces_append comments hapart,
        pieces_blank (by decide), ih hps, List.intersperse_cons_cons]

theorem flatMap_intersperse {β : Type} {f : Piece → List β} {sep : Piece} (hsep : f sep = [])
    (ps : List Piece) : (ps.intersperse sep).flatMap f = ps.flatMap f := by
  induction ps with
  | nil => rfl
  | cons p ps ih =>
    cases ps with
    | nil => rfl
    | cons q qs =>
      rw [List.intersperse_cons_cons, List.flatMap_cons, List.flatMap_cons, hsep,
        List.nil_append, ih, List.flatMap_cons, List.flatMap_cons, List.flatMap_cons]

/-! ## The texts of tokens -/

/-- A token without flaws has the text that it covers. -/
theorem text_eq_source {comments : Bool} {source : List Char} {p : Piece}
    (h : p ∈ pieces comments source) (hclean : p.flaws = []) {said : Kind × String}
    (hsaid : p.lexeme? = some said) : said.2.toList = p.source := by
  obtain ⟨head, tail, after, rfl, -⟩ := exists_scan_of_mem_pieces h
  rcases scan_tells comments head (tail ++ after) with
    ⟨kind, value, hcontent, htells⟩ | ⟨hnone, -⟩
  · rw [lexeme?, hcontent] at hsaid
    cases hsaid
    exact String.toList_ofList.trans (htells.clean hclean)
  · obtain ⟨kind, text, hcontent⟩ := lexeme?_isSome (Option.isSome_of_eq_some hsaid)
    exact absurd hcontent (hnone kind text)

end Piece

theorem map_lexeme_tokens (comments : Bool) (source : List Char) :
    (lex comments source).tokens.map Token.lexeme =
      (Piece.pieces comments source).filterMap Piece.lexeme? := by
  rw [lex_tokens, List.map_filterMap, ← map_piece_placedPieces, List.filterMap_map]
  apply List.filterMap_congr
  intro p _
  cases hcontent : p.piece.content <;>
    simp [Placed.token?, Piece.lexeme?, Token.lexeme, hcontent]

/-- The pieces of a source that are tokens. -/
def tokenPieces (comments : Bool) (source : List Char) : List Piece :=
  (Piece.pieces comments source).filter fun p => p.lexeme?.isSome

theorem map_text_tokens {comments : Bool} {source : List Char}
    (hclean : (lex comments source).diagnostics = []) :
    (lex comments source).tokens.map (fun t => t.text.toList) =
      (tokenPieces comments source).map Piece.source := by
  have hpieces := diagnostics_eq_nil_iff.mp hclean
  calc (lex comments source).tokens.map (fun t => t.text.toList)
      = ((lex comments source).tokens.map Token.lexeme).map (fun said => said.2.toList) := by
        rw [List.map_map]
        rfl
    _ = (Piece.pieces comments source).filterMap fun p =>
          p.lexeme?.map fun said => said.2.toList := by
        rw [map_lexeme_tokens, List.map_filterMap]
    _ = (Piece.pieces comments source).filterMap fun p =>
          if p.lexeme?.isSome then some p.source else none := by
        apply List.filterMap_congr
        intro p hp
        cases hsaid : p.lexeme? with
        | none => rfl
        | some said => exact congrArg some (Piece.text_eq_source hp (hpieces p hp) hsaid)
    _ = (tokenPieces comments source).map Piece.source := by
        rw [tokenPieces, ← List.filterMap_eq_map, List.filterMap_filter]
        rfl

theorem standsAlone_of_mem_tokenPieces {comments : Bool} {source : List Char}
    (hclean : (lex comments source).diagnostics = []) :
    ∀ p ∈ tokenPieces comments source, p.StandsAlone := by
  intro p hp
  obtain ⟨hmem, htoken⟩ := List.mem_filter.mp hp
  exact Piece.standsAlone_of_mem hmem (diagnostics_eq_nil_iff.mp hclean p hmem) htoken

/-- The printed tokens are cut into these tokens again, with a space between each two. -/
theorem pieces_printed {comments : Bool} {source : List Char}
    (hclean : (lex comments source).diagnostics = []) (comments' : Bool) :
    Piece.pieces comments' (printed (lex comments source).tokens) =
      (tokenPieces comments source).intersperse (Piece.ofBlank ' ') := by
  rw [printed, map_text_tokens hclean]
  exact Piece.pieces_spaced (standsAlone_of_mem_tokenPieces hclean) comments'

/-- **Printing.** The tokens of a source without diagnostics, written down with one space
between each two of them, are read back without diagnostics as the same tokens, whether
comments are skipped in the one text and in the other or not. -/
theorem lex_printed {comments : Bool} {source : List Char}
    (hclean : (lex comments source).diagnostics = []) (comments' : Bool) :
    (lex comments' (printed (lex comments source).tokens)).diagnostics = [] ∧
      (lex comments' (printed (lex comments source).tokens)).tokens.map Token.lexeme =
        (lex comments source).tokens.map Token.lexeme := by
  have hpieces := pieces_printed hclean comments'
  constructor
  · apply diagnostics_eq_nil_iff.mpr
    rw [hpieces, ← List.flatMap_eq_nil_iff, Piece.flatMap_intersperse rfl,
      List.flatMap_eq_nil_iff]
    intro p hp
    exact diagnostics_eq_nil_iff.mp hclean p (List.mem_filter.mp hp).1
  · rw [map_lexeme_tokens, map_lexeme_tokens, hpieces, List.filterMap_eq_flatMap_toList,
      Piece.flatMap_intersperse rfl, ← List.filterMap_eq_flatMap_toList, tokenPieces,
      List.filterMap_filter]
    apply List.filterMap_congr
    intro p _
    cases p.lexeme? <;> rfl

/-- The dashes of a string start no comment, and two points stay one symbol. -/
theorem lex_printed_dashes :
    (lex true "x='--'..1--".toList).diagnostics = [] ∧
      (lex false "x = '--' .. 1".toList).diagnostics = [] ∧
      (lex false "x = '--' .. 1".toList).tokens.map Token.lexeme =
        [(.name, "x"), (.symbol, "="), (.string, "'--'"), (.symbol, ".."), (.number, "1")] := by
  have hclean : (lex true "x='--'..1--".toList).diagnostics = [] := by decide +kernel
  have hprinted : printed (lex true "x='--'..1--".toList).tokens = "x = '--' .. 1".toList := by
    decide +kernel
  obtain ⟨hagain, htokens⟩ := lex_printed hclean false
  rw [hprinted] at hagain htokens
  exact ⟨hclean, hagain, htokens.trans (by decide +kernel)⟩

end LuaChecker

import LuaChecker.Proofs.Lexing.Coverage

/-!
# Lines of tokens and diagnostics

The line of a token is the line of its first character, however many lines the token goes
over. A diagnostic is about the token, the comment or the dropped character in which
something is wrong, and it stands on the line on which that starts. Since all of these are
read in the order of the source, the lines of the tokens never decrease, nor do those of the
diagnostics.

* `lineAt_mono`: a later position is on the same line or on a later one;
* `mem_starts_iff`: what starts where something is read;
* `diagnostics_eq_flatMap_starts`: the diagnostics by the places at which their pieces start;
* `lex_lines`: the lines of tokens and diagnostics.
-/

namespace LuaChecker

/-! ## Lines of positions -/

/-- The line of a position, counted from 1. -/
def lineAt (source : List Char) (i : Nat) : Nat :=
  1 + (source.take i).count '\n'

theorem lineAt_mono (source : List Char) {i j : Nat} (h : i ≤ j) :
    lineAt source i ≤ lineAt source j := by
  have hprefix : source.take i <+: source.take j := List.take_prefix_take_left h
  have hcount := hprefix.sublist.count_le '\n'
  unfold lineAt
  omega

/-- What is wrong with the piece that is read at a position. -/
def flawsAt (comments : Bool) (source : List Char) (i : Nat) : List Flaw :=
  match source.drop i with
  | [] => []
  | c :: cs => (Piece.scan comments c cs).flaws

/-- The diagnostics about the piece that is read at a position, on the line of that
position. -/
def reportsAt (comments : Bool) (source : List Char) (i : Nat) : List Diagnostic :=
  (flawsAt comments source i).map fun flaw => ⟨some (lineAt source i), flaw.message⟩

/-- The lines of what is read from a source, given the places at which a token, a skipped
comment or a dropped character starts. -/
structure KeepsLines (comments : Bool) (source : List Char) (lexed : Lexed)
    (starts : List Nat) : Prop where
  token : ∀ t ∈ lexed.tokens, t.line = lineAt source t.position
  starts_ordered : starts.Pairwise (· < ·)
  starts_iff : ∀ i, i ∈ starts ↔ (∃ t ∈ lexed.tokens, t.position = i) ∨
    (∃ s ∈ skippedSpans comments source, s.position = i) ∨ i ∈ droppedPositions comments source
  reports : lexed.diagnostics = starts.flatMap (reportsAt comments source)
  tokens_ordered : (lexed.tokens.map Token.line).Pairwise (· ≤ ·)
  /-- Every diagnostic has a line, and the lines never decrease. -/
  diagnostics_ordered : ∃ lines : List Nat,
    lexed.diagnostics.map Diagnostic.line = lines.map some ∧ lines.Pairwise (· ≤ ·)

/-! ## Places at which something starts -/

/-- The place of a piece that is no blank. -/
def Placed.start? (p : Placed) : Option Nat :=
  if p.piece.content = .blank then none else some p.spot.position

def starts (comments : Bool) (source : List Char) : List Nat :=
  (placedPieces comments source).filterMap Placed.start?

theorem Placed.start?_eq_some {p : Placed} {i : Nat} (h : p.start? = some i) :
    i = p.spot.position ∧ p.piece.content ≠ .blank := by
  unfold start? at h
  split at h
  · cases h
  · rename_i hcontent
    exact ⟨(Option.some.inj h).symm, hcontent⟩

section

variable {comments : Bool} {source : List Char}

theorem starts_pairwise (comments : Bool) (source : List Char) :
    (starts comments source).Pairwise (· < ·) := by
  apply pairwise_filterMap_placed comments source
  intro p q hbefore i hi j hj
  rw [(Placed.start?_eq_some hi).1, (Placed.start?_eq_some hj).1]
  have hwidth := p.piece.width_pos
  simp only [Span.Before, Span.finish, Placed.span] at hbefore
  omega

theorem mem_starts {p : Placed} (hp : p ∈ placedPieces comments source)
    (hcontent : p.piece.content ≠ .blank) : p.spot.position ∈ starts comments source :=
  List.mem_filterMap.mpr ⟨p, hp, if_neg hcontent⟩

theorem mem_starts_iff {i : Nat} :
    i ∈ starts comments source ↔ (∃ t ∈ (lex comments source).tokens, t.position = i) ∨
      (∃ s ∈ skippedSpans comments source, s.position = i) ∨
        i ∈ droppedPositions comments source := by
  constructor
  · intro h
    obtain ⟨p, hp, hstart⟩ := List.mem_filterMap.mp h
    obtain ⟨rfl, hblank⟩ := Placed.start?_eq_some hstart
    cases hcontent : p.piece.content with
    | blank => exact absurd hcontent hblank
    | comment => exact .inr (.inl ⟨p.span, mem_skippedSpans hp hcontent, rfl⟩)
    | stray => exact .inr (.inr (mem_droppedPositions hp hcontent))
    | token kind text =>
      obtain ⟨t, ht, hspan⟩ := exists_token hp hcontent
      exact .inl ⟨t, ht, congrArg Span.position hspan⟩
  · rintro (⟨t, ht, rfl⟩ | ⟨s, hs, rfl⟩ | hi)
    · obtain ⟨p, hp, hspan, kind, text, hcontent⟩ := of_mem_tokens ht
      have hposition : t.position = p.spot.position := congrArg Span.position hspan
      rw [hposition]
      exact mem_starts hp (by rw [hcontent]; exact Content.noConfusion)
    · obtain ⟨p, hp, rfl, hcontent⟩ := of_mem_skippedSpans hs
      exact mem_starts hp (by rw [hcontent]; exact Content.noConfusion)
    · obtain ⟨p, hp, rfl, hcontent⟩ := of_mem_droppedPositions hi
      exact mem_starts hp (by rw [hcontent]; exact Content.noConfusion)

/-! ## Diagnostics by their places -/

theorem Piece.Accounts.flaws_of_blank {p : Piece} {after : List Char}
    (h : p.Accounts comments after) (hcontent : p.content = .blank) : p.flaws = [] := by
  cases h with
  | blank hblank => rfl
  | comment hon hcomment hshape hflaws =>
    rw [hcomment] at hcontent
    cases hcontent
  | stray hblank hstarts => cases hcontent
  | token htoken =>
    rw [htoken.content] at hcontent
    cases hcontent

theorem flawsAt_position {p : Placed} (hp : p ∈ placedPieces comments source) :
    flawsAt comments source p.spot.position = p.piece.flaws := by
  obtain ⟨front, c, cs, rfl, rfl⟩ := exists_scan_of_mem hp
  simp only [flawsAt, drop_past]

/-- A piece is reported on where it starts, and a blank not at all. -/
theorem diagnostics_of_placed {p : Placed} (hp : p ∈ placedPieces comments source) :
    p.diagnostics = p.start?.toList.flatMap (reportsAt comments source) := by
  have hstands := stands_of_mem hp
  by_cases hcontent : p.piece.content = .blank
  · rw [Placed.diagnostics, hstands.accounts.flaws_of_blank hcontent, Placed.start?,
      if_pos hcontent]
    rfl
  · have hline : lineAt source p.spot.position = p.spot.line := hstands.line_eq.symm
    rw [Placed.start?, if_neg hcontent, Option.toList_some, List.flatMap_singleton, reportsAt,
      flawsAt_position hp, hline]
    rfl

theorem diagnostics_eq_flatMap_starts (comments : Bool) (source : List Char) :
    (lex comments source).diagnostics =
      (starts comments source).flatMap (reportsAt comments source) := by
  rw [lex_diagnostics, starts, List.filterMap_eq_flatMap_toList, List.flatMap_assoc]
  exact List.flatMap_congr fun p hp => diagnostics_of_placed hp

/-! ## The order of lines -/

theorem line_of_token {t : Token} (ht : t ∈ (lex comments source).tokens) :
    t.line = lineAt source t.position := by
  obtain ⟨p, hp, htoken⟩ := List.mem_filterMap.mp ht
  have hline := (stands_of_mem hp).line_eq
  unfold Placed.token? at htoken
  split at htoken
  · cases htoken
    exact hline
  · cases htoken

theorem token_lines_pairwise (comments : Bool) (source : List Char) :
    ((lex comments source).tokens.map Token.line).Pairwise (· ≤ ·) := by
  have hordered := List.pairwise_map.mp (tokens_ordered comments source)
  apply List.pairwise_map.mpr
  apply hordered.imp_of_mem
  intro t u ht hu hbefore
  have hle : t.position ≤ u.position := by
    simp only [Span.Before, Span.finish, Token.span] at hbefore
    omega
  rw [line_of_token ht, line_of_token hu]
  exact lineAt_mono source hle

/-- The lines of the diagnostics. -/
def diagnosticLines (comments : Bool) (source : List Char) : List Nat :=
  (starts comments source).flatMap fun i =>
    (flawsAt comments source i).map fun _ => lineAt source i

theorem map_line_diagnostics (comments : Bool) (source : List Char) :
    (lex comments source).diagnostics.map Diagnostic.line =
      (diagnosticLines comments source).map some := by
  rw [diagnostics_eq_flatMap_starts, diagnosticLines, List.map_flatMap, List.map_flatMap]
  apply List.flatMap_congr
  intro i _
  rw [reportsAt, List.map_map, List.map_map]
  rfl

theorem diagnosticLines_pairwise (comments : Bool) (source : List Char) :
    (diagnosticLines comments source).Pairwise (· ≤ ·) := by
  apply List.pairwise_flatMap.mpr
  constructor
  · intro i _
    exact List.pairwise_map.mpr (List.pairwise_of_forall fun _ _ => Nat.le_refl _)
  · apply (starts_pairwise comments source).imp
    intro i j hlt m hm n hn
    obtain ⟨_, -, rfl⟩ := List.mem_map.mp hm
    obtain ⟨_, -, rfl⟩ := List.mem_map.mp hn
    exact lineAt_mono source (Nat.le_of_lt hlt)

end

/-- **Physical lines.** Every token is on the line of its first character. Every diagnostic
is on the line on which the token, the comment or the dropped character starts that it is
about, and these come in the order of the source. -/
theorem lex_lines (comments : Bool) (source : List Char) :
    ∃ starts, KeepsLines comments source (lex comments source) starts := by
  refine ⟨starts comments source, ?_⟩
  constructor
  case token => exact fun t ht => line_of_token ht
  case starts_ordered => exact starts_pairwise comments source
  case starts_iff => exact fun i => mem_starts_iff
  case reports => exact diagnostics_eq_flatMap_starts comments source
  case tokens_ordered => exact token_lines_pairwise comments source
  case diagnostics_ordered =>
    exact ⟨diagnosticLines comments source, map_line_diagnostics comments source,
      diagnosticLines_pairwise comments source⟩

end LuaChecker

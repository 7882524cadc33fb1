import LuaChecker.Lexing
import LuaChecker.Proofs.Lexing.Account
import Mathlib.Data.List.Basic

/-!
# Every character of a source is accounted for

The placed pieces of a source text stand one behind the other and leave nothing out. So the
tokens are in order and apart from each other, and a character outside all of them is a
blank, belongs to a comment that is skipped, or is dropped. What is dropped is reported,
character by character.

* `pieces_induction`: a text is read piece by piece;
* `exists_scan_of_mem`, `stands_of_mem`: a placed piece is what is read where the text before
  it ends;
* `pairwise_before`: each piece ends where a later one starts, or before;
* `exists_holds`: every position of the source is held by a piece;
* `lex_covers`: tokens, skipped comments and dropped characters cover the source.
-/

namespace LuaChecker

/-! ## Spans -/

structure Span where
  position : Nat
  width : Nat
  deriving DecidableEq, Repr

namespace Span

def finish (s : Span) : Nat := s.position + s.width

def Holds (s : Span) (i : Nat) : Prop := s.position ≤ i ∧ i < s.finish

/-- One span ends where the other starts, or before. -/
def Before (s t : Span) : Prop := s.finish ≤ t.position

def text (s : Span) (source : List Char) : List Char :=
  (source.drop s.position).take s.width

end Span

def Token.span (t : Token) : Span := ⟨t.position, t.width⟩

/-! ## Reports of dropped characters -/

/-- The message about a character that starts no token. -/
def strayMessage (c : Char) : String :=
  "'" ++ String.singleton c ++ "' does not start a valid token"

/-- A diagnostic reports a character that starts no token. -/
def Diagnostic.IsStray (d : Diagnostic) : Prop := ∃ c, d.message = strayMessage c

theorem Diagnostic.isStray_iff {d : Diagnostic} :
    (d.message.toList.any fun c => decide (d.message = strayMessage c)) = true ↔ d.IsStray := by
  rw [List.any_eq_true]
  constructor
  · rintro ⟨c, -, h⟩
    exact ⟨c, of_decide_eq_true h⟩
  · rintro ⟨c, h⟩
    refine ⟨c, ?_, decide_eq_true h⟩
    rw [h]
    simp [strayMessage]

instance (d : Diagnostic) : Decidable d.IsStray :=
  decidable_of_iff _ Diagnostic.isStray_iff

theorem not_isStray {flaw : Flaw} (line : Option Nat) (h : flaw.stray? = none) :
    ¬ Diagnostic.IsStray ⟨line, flaw.message⟩ := by
  rintro ⟨c, hc⟩
  have hfirst : flaw.message.toList.head? = some '\'' := by
    have hmessage : flaw.message = strayMessage c := hc
    rw [hmessage]
    simp [strayMessage]
  cases flaw with
  | strayCharacter d => cases h
  | commentNotClosed => exact absurd hfirst (by decide)
  | repeatedPoint => exact absurd hfirst (by decide)
  | repeatedExponent => exact absurd hfirst (by decide)
  | illegalEscape => exact absurd hfirst (by decide)
  | stringNotClosed => exact absurd hfirst (by decide)
  | strayOpening => exact absurd hfirst (by decide)
  | missingOpening => exact absurd hfirst (by decide)
  | nestedBrackets => exact absurd hfirst (by decide)

/-- The report of the character at a position, on the line of that character. -/
def strayAt (source : List Char) (i : Nat) : Option Diagnostic :=
  source[i]?.map fun c => ⟨some (1 + (source.take i).count '\n'), strayMessage c⟩

/-- What the lexer yields covers a source, together with the comments that are skipped and
the positions of the characters that are dropped. -/
structure Covers (comments : Bool) (source : List Char) (lexed : Lexed) (skipped : List Span)
    (dropped : List Nat) : Prop where
  width_pos : ∀ t ∈ lexed.tokens, 1 ≤ t.width
  inside : ∀ t ∈ lexed.tokens, t.position + t.width ≤ source.length
  ordered : (lexed.tokens.map Token.span).Pairwise Span.Before
  /-- Comments are skipped only when the option is on. -/
  skipped_on : skipped ≠ [] → comments = true
  skipped_ordered : skipped.Pairwise Span.Before
  skipped_comment : ∀ s ∈ skipped,
    Piece.IsComment (s.text source) (source.drop (s.position + s.width))
  skipped_apart : ∀ s ∈ skipped, ∀ t ∈ lexed.tokens, s.Before t.span ∨ t.span.Before s
  dropped_ordered : dropped.Pairwise (· < ·)
  dropped_inside : ∀ i ∈ dropped, i < source.length
  /-- A dropped character is no blank and starts no token. -/
  dropped_stray : ∀ i ∈ dropped, ∀ c ∈ source[i]?,
    Text.isBlank c = false ∧ ¬ Piece.StartsToken (source.drop i)
  dropped_apart : ∀ i ∈ dropped, (∀ t ∈ lexed.tokens, ¬ t.span.Holds i) ∧
    ∀ s ∈ skipped, ¬ s.Holds i
  /-- A character outside all tokens is blank, skipped or dropped. -/
  outside : ∀ i c, source[i]? = some c → (∀ t ∈ lexed.tokens, ¬ t.span.Holds i) →
    Text.isBlank c = true ∨ (∃ s ∈ skipped, s.Holds i) ∨ i ∈ dropped
  /-- The reports of characters that start no token are those of the dropped ones. -/
  reports : lexed.diagnostics.filter (·.IsStray) = dropped.filterMap (strayAt source)

/-! ## Pieces one by one -/

namespace Piece

variable {comments : Bool} {head : Char} {tail after : List Char}

/-- The first piece of a text, given what it covers. -/
theorem pieces_of_tail (h : (scan comments head (tail ++ after)).tail = tail) :
    pieces comments (head :: (tail ++ after)) =
      scan comments head (tail ++ after) :: pieces comments after := by
  rw [pieces_cons, h, List.drop_left]

/-- The piece of a white-space character. -/
def ofBlank (c : Char) : Piece := ⟨c, [], .blank, []⟩

theorem pieces_blank {c : Char} (h : Text.isBlank c = true) (text : List Char) :
    pieces comments (c :: text) = ofBlank c :: pieces comments text := by
  have hscan : scan comments c text = ofBlank c := by rw [scan, if_pos h, ofBlank]
  rw [pieces_cons, hscan]
  rfl

/-- Induction over the pieces of a text, from its end. -/
theorem pieces_induction (comments : Bool) {motive : List Char → Prop} (nil : motive [])
    (piece : ∀ head tail after, (scan comments head (tail ++ after)).tail = tail →
      motive after → motive (head :: (tail ++ after)))
    (source : List Char) : motive source := by
  induction hn : source.length using Nat.strongRecOn generalizing source with
  | _ n ih =>
    subst hn
    cases source with
    | nil => exact nil
    | cons c cs =>
      obtain ⟨after, hafter⟩ := scan_tail_isPrefix comments c cs
      have hlt : after.length < (c :: cs).length := by
        rw [← hafter, List.length_cons, List.length_append]
        omega
      rw [← hafter]
      exact piece c _ after (congrArg (fun text => (scan comments c text).tail) hafter)
        (ih _ hlt after rfl)

end Piece

/-! ## Placed pieces -/

namespace Placed

def span (p : Placed) : Span := ⟨p.spot.position, p.piece.width⟩

/-- A placed piece stands in a source where its place says, and accounts for its
characters. -/
structure Stands (comments : Bool) (source : List Char) (p : Placed) : Prop where
  text_eq : p.span.text source = p.piece.source
  finish_le : p.span.finish ≤ source.length
  line_eq : p.spot.line = 1 + (source.take p.spot.position).count '\n'
  accounts : p.piece.Accounts comments (source.drop p.span.finish)

def skipped? (p : Placed) : Option Span :=
  if p.piece.content = .comment then some p.span else none

def dropped? (p : Placed) : Option Nat :=
  if p.piece.content = .stray then some p.spot.position else none

end Placed

theorem Spot.past_past (s : Spot) (first second : List Char) :
    (s.past first).past second = s.past (first ++ second) := by
  simp [Spot.past, Nat.add_assoc]

/-- A text stands where the text in front of it ends. -/
theorem drop_past (front text : List Char) :
    (front ++ text).drop (Spot.start.past front).position = text := by
  simp [Spot.past, Spot.start]

theorem stands_append {comments : Bool} {p : Piece} {after : List Char} (before : List Char)
    (h : p.Accounts comments after) :
    (Placed.mk (Spot.start.past before) p).Stands comments
      (before ++ (p.source ++ after)) := by
  have hposition : (Spot.start.past before).position = before.length := Nat.zero_add _
  have hfinish : (Placed.mk (Spot.start.past before) p).span.finish =
      (before ++ p.source).length := by
    simp [Placed.span, Span.finish, hposition]
  refine ⟨?_, ?_, ?_, ?_⟩
  · simp only [Span.text, Placed.span, hposition]
    rw [List.drop_left, List.take_left' (Piece.length_source p)]
  · rw [hfinish, ← List.append_assoc]
    exact (List.prefix_append _ _).length_le
  · rw [hposition, List.take_left]
    rfl
  · rwa [hfinish, ← List.append_assoc, List.drop_left]

/-- A placed piece is what is read at its place: it starts where the text in front of it
ends. -/
theorem exists_scan_of_mem_place {comments : Bool} {source : List Char} {p : Placed}
    (before : List Char)
    (h : p ∈ place (Spot.start.past before) (Piece.pieces comments source)) :
    ∃ front c cs, before ++ source = front ++ c :: cs ∧
      p = ⟨Spot.start.past front, Piece.scan comments c cs⟩ := by
  induction source using Piece.pieces_induction comments generalizing before with
  | nil =>
    rw [Piece.pieces_nil] at h
    cases h
  | piece head tail after htail ih =>
    rw [Piece.pieces_of_tail htail, place_cons] at h
    rcases List.mem_cons.mp h with rfl | hlater
    · exact ⟨before, head, tail ++ after, rfl, rfl⟩
    · have hsource : (Piece.scan comments head (tail ++ after)).source = head :: tail := by
        rw [Piece.source, Piece.scan_head, htail]
      rw [Spot.past_past, hsource] at hlater
      obtain ⟨front, c, cs, hfront, hp⟩ := ih _ hlater
      exact ⟨front, c, cs, by rw [← hfront]; simp, hp⟩

theorem exists_scan_of_mem {comments : Bool} {source : List Char} {p : Placed}
    (h : p ∈ placedPieces comments source) :
    ∃ front c cs, source = front ++ c :: cs ∧
      p = ⟨Spot.start.past front, Piece.scan comments c cs⟩ :=
  exists_scan_of_mem_place [] h

theorem stands_of_mem {comments : Bool} {source : List Char} {p : Placed}
    (h : p ∈ placedPieces comments source) : p.Stands comments source := by
  obtain ⟨front, c, cs, hsource, rfl⟩ := exists_scan_of_mem h
  have hstands := stands_append front (Piece.scan_accounts comments c cs)
  rwa [Piece.scan_source_append, ← hsource] at hstands

theorem map_piece_place (s : Spot) (ps : List Piece) :
    (place s ps).map Placed.piece = ps := by
  induction ps generalizing s with
  | nil => rfl
  | cons p ps ih => rw [place_cons, List.map_cons, ih]

theorem map_piece_placedPieces (comments : Bool) (source : List Char) :
    (placedPieces comments source).map Placed.piece = Piece.pieces comments source :=
  map_piece_place _ _

/-- Without diagnostics nothing is wrong with any piece, and conversely. -/
theorem diagnostics_eq_nil_iff {comments : Bool} {source : List Char} :
    (lex comments source).diagnostics = [] ↔
      ∀ p ∈ Piece.pieces comments source, p.flaws = [] := by
  rw [lex_diagnostics, List.flatMap_eq_nil_iff, ← map_piece_placedPieces, List.forall_mem_map]
  exact forall₂_congr fun p _ => List.map_eq_nil_iff

theorem position_le_of_mem {s : Spot} {ps : List Piece} {p : Placed} (h : p ∈ place s ps) :
    s.position ≤ p.spot.position := by
  induction ps generalizing s with
  | nil => cases h
  | cons q qs ih =>
    rw [place_cons] at h
    rcases List.mem_cons.mp h with rfl | hlater
    · exact Nat.le_refl _
    · have hle := ih hlater
      simp only [Spot.past] at hle
      omega

theorem pairwise_before (s : Spot) (ps : List Piece) :
    (place s ps).Pairwise fun p q => p.span.Before q.span := by
  induction ps generalizing s with
  | nil => exact List.Pairwise.nil
  | cons q qs ih =>
    rw [place_cons]
    refine List.Pairwise.cons ?_ (ih _)
    intro p hp
    exact position_le_of_mem hp

theorem exists_holds {s : Spot} {ps : List Piece} {i : Nat} (hfrom : s.position ≤ i)
    (hto : i < s.position + (ps.flatMap Piece.source).length) :
    ∃ p ∈ place s ps, p.span.Holds i := by
  induction ps generalizing s with
  | nil =>
    simp only [List.flatMap_nil, List.length_nil] at hto
    omega
  | cons q qs ih =>
    rw [place_cons]
    rw [List.flatMap_cons, List.length_append, Piece.length_source] at hto
    by_cases hi : i < s.position + q.width
    · exact ⟨⟨s, q⟩, List.mem_cons_self, hfrom, hi⟩
    · have hpast : (s.past q.source).position = s.position + q.width := rfl
      obtain ⟨p, hp, hholds⟩ := ih (s := s.past q.source) (by omega) (by omega)
      exact ⟨p, List.mem_cons_of_mem _ hp, hholds⟩

/-- What is read off the placed pieces keeps their order. -/
theorem pairwise_filterMap_placed {β : Type} {R : β → β → Prop} {f : Placed → Option β}
    (comments : Bool) (source : List Char)
    (h : ∀ p q, p.span.Before q.span → ∀ a ∈ f p, ∀ b ∈ f q, R a b) :
    ((placedPieces comments source).filterMap f).Pairwise R :=
  List.pairwise_filterMap.mpr ((pairwise_before _ _).imp fun hbefore => h _ _ hbefore)

/-- Two pieces that stand for different things do not share a position. -/
theorem apart_of_mem {comments : Bool} {source : List Char} {p q : Placed}
    (hp : p ∈ placedPieces comments source) (hq : q ∈ placedPieces comments source)
    (hne : p.piece.content ≠ q.piece.content) :
    p.span.Before q.span ∨ q.span.Before p.span := by
  have hordered : (placedPieces comments source).Pairwise fun p q => p.span.Before q.span :=
    pairwise_before _ _
  have hboth := List.Pairwise.forall_of_forall_of_flip
    (R := fun p q : Placed => p ≠ q → p.span.Before q.span ∨ q.span.Before p.span)
    (fun _ _ hself => absurd rfl hself)
    (hordered.imp fun hbefore _ => Or.inl hbefore)
    (hordered.imp fun hbefore _ => Or.inr hbefore)
  refine hboth hp hq ?_
  rintro rfl
  exact hne rfl

theorem Span.not_holds {s t : Span} {i : Nat} (h : s.Before t ∨ t.Before s)
    (hi : s.Holds i) : ¬ t.Holds i := by
  intro ht
  simp only [Span.Before, Span.Holds, Span.finish] at h hi ht
  omega

/-! ## What a placed piece is -/

namespace Placed

variable {comments : Bool} {source : List Char} {p q : Placed}

theorem Stands.getElem?_eq (h : p.Stands comments source) :
    source[p.spot.position]? = some p.piece.head := by
  calc source[p.spot.position]?
      = ((source.drop p.spot.position).take p.piece.width)[0]? := by
        rw [List.getElem?_take_of_lt (Piece.width_pos _), List.getElem?_drop, Nat.add_zero]
    _ = p.piece.source[0]? := congrArg (·[0]?) h.text_eq
    _ = some p.piece.head := rfl

theorem token?_eq_some {t : Token} (h : p.token? = some t) :
    t.span = p.span ∧ ∃ kind text, p.piece.content = .token kind text := by
  unfold token? at h
  split at h
  · rename_i kind text hcontent
    cases h
    exact ⟨rfl, kind, text, hcontent⟩
  · cases h

theorem skipped?_eq_some {s : Span} (h : p.skipped? = some s) :
    s = p.span ∧ p.piece.content = .comment := by
  unfold skipped? at h
  split at h
  · rename_i hcontent
    exact ⟨(Option.some.inj h).symm, hcontent⟩
  · cases h

theorem dropped?_eq_some {i : Nat} (h : p.dropped? = some i) :
    i = p.spot.position ∧ p.piece.content = .stray := by
  unfold dropped? at h
  split at h
  · rename_i hcontent
    exact ⟨(Option.some.inj h).symm, hcontent⟩
  · cases h

theorem Stands.drop_eq (h : p.Stands comments source) :
    source.drop p.spot.position = p.piece.source ++ source.drop p.span.finish := by
  have hsplit := List.take_append_drop p.piece.width (source.drop p.spot.position)
  rw [List.drop_drop] at hsplit
  rw [← h.text_eq]
  exact hsplit.symm

theorem holds_position (p : Placed) : p.span.Holds p.spot.position :=
  ⟨Nat.le_refl _, Nat.lt_add_of_pos_right p.piece.width_pos⟩

/-- A piece of one character holds only the position at which it starts. -/
theorem eq_of_holds {i : Nat} (hi : p.span.Holds i) (htail : p.piece.tail = []) :
    i = p.spot.position := by
  simp only [Span.Holds, Span.finish, span, Piece.width, htail, List.length_nil] at hi
  omega

/-- The reports of a piece that are about a character that starts no token. -/
theorem Stands.reports (h : p.Stands comments source) :
    p.diagnostics.filter (·.IsStray) = (p.dropped?.bind (strayAt source)).toList := by
  by_cases hcontent : p.piece.content = .stray
  · obtain ⟨-, hflaws, -, -⟩ := h.accounts.of_stray hcontent
    have hstray : Diagnostic.IsStray
        ⟨some p.spot.line, (Flaw.strayCharacter p.piece.head).message⟩ := ⟨p.piece.head, rfl⟩
    rw [diagnostics, hflaws, List.map_cons, List.map_nil, dropped?, if_pos hcontent,
      Option.bind_some, strayAt, h.getElem?_eq, ← h.line_eq]
    exact List.filter_cons_of_pos (decide_eq_true hstray)
  · have hnone : p.diagnostics.filter (·.IsStray) = [] := by
      rw [List.filter_eq_nil_iff]
      intro d hd
      obtain ⟨flaw, hflaw, rfl⟩ := List.mem_map.mp hd
      simpa using not_isStray _ (h.accounts.flaws_of_ne hcontent flaw hflaw)
    rw [hnone, dropped?, if_neg hcontent]
    rfl

end Placed

/-! ## The covering of a source -/

section

variable {comments : Bool} {source : List Char}

def skippedSpans (comments : Bool) (source : List Char) : List Span :=
  (placedPieces comments source).filterMap Placed.skipped?

def droppedPositions (comments : Bool) (source : List Char) : List Nat :=
  (placedPieces comments source).filterMap Placed.dropped?

theorem of_mem_tokens {t : Token} (h : t ∈ (lex comments source).tokens) :
    ∃ p ∈ placedPieces comments source, t.span = p.span ∧
      ∃ kind text, p.piece.content = .token kind text := by
  obtain ⟨p, hp, htoken⟩ := List.mem_filterMap.mp h
  exact ⟨p, hp, Placed.token?_eq_some htoken⟩

theorem of_mem_skippedSpans {s : Span} (h : s ∈ skippedSpans comments source) :
    ∃ p ∈ placedPieces comments source, s = p.span ∧ p.piece.content = .comment := by
  obtain ⟨p, hp, hskipped⟩ := List.mem_filterMap.mp h
  exact ⟨p, hp, Placed.skipped?_eq_some hskipped⟩

theorem of_mem_droppedPositions {i : Nat} (h : i ∈ droppedPositions comments source) :
    ∃ p ∈ placedPieces comments source, i = p.spot.position ∧ p.piece.content = .stray := by
  obtain ⟨p, hp, hdropped⟩ := List.mem_filterMap.mp h
  exact ⟨p, hp, Placed.dropped?_eq_some hdropped⟩

theorem exists_token {p : Placed} {kind : Kind} {text : List Char}
    (hp : p ∈ placedPieces comments source) (hcontent : p.piece.content = .token kind text) :
    ∃ t ∈ (lex comments source).tokens, t.span = p.span := by
  have htoken : p.token? =
      some ⟨p.spot.line, p.spot.position, p.piece.width, kind, String.ofList text⟩ := by
    rw [Placed.token?, hcontent]
  exact ⟨_, List.mem_filterMap.mpr ⟨p, hp, htoken⟩, rfl⟩

theorem mem_skippedSpans {p : Placed} (hp : p ∈ placedPieces comments source)
    (hcontent : p.piece.content = .comment) : p.span ∈ skippedSpans comments source :=
  List.mem_filterMap.mpr ⟨p, hp, if_pos hcontent⟩

theorem mem_droppedPositions {p : Placed} (hp : p ∈ placedPieces comments source)
    (hcontent : p.piece.content = .stray) :
    p.spot.position ∈ droppedPositions comments source :=
  List.mem_filterMap.mpr ⟨p, hp, if_pos hcontent⟩

theorem exists_mem_holds (comments : Bool) {i : Nat} (h : i < source.length) :
    ∃ p ∈ placedPieces comments source, p.span.Holds i := by
  refine exists_holds (Nat.zero_le i) ?_
  rw [Piece.flatMap_source_pieces]
  exact Nat.lt_add_left _ h

theorem tokens_ordered (comments : Bool) (source : List Char) :
    ((lex comments source).tokens.map Token.span).Pairwise Span.Before := by
  rw [lex_tokens, List.pairwise_map]
  refine pairwise_filterMap_placed comments source ?_
  intro p q hbefore t ht u hu
  rw [(Placed.token?_eq_some ht).1, (Placed.token?_eq_some hu).1]
  exact hbefore

theorem skippedSpans_ordered (comments : Bool) (source : List Char) :
    (skippedSpans comments source).Pairwise Span.Before := by
  refine pairwise_filterMap_placed comments source ?_
  intro p q hbefore s hs t ht
  rw [(Placed.skipped?_eq_some hs).1, (Placed.skipped?_eq_some ht).1]
  exact hbefore

theorem droppedPositions_ordered (comments : Bool) (source : List Char) :
    (droppedPositions comments source).Pairwise (· < ·) := by
  refine pairwise_filterMap_placed comments source ?_
  intro p q hbefore i hi j hj
  rw [(Placed.dropped?_eq_some hi).1, (Placed.dropped?_eq_some hj).1]
  have hwidth := p.piece.width_pos
  simp only [Span.Before, Span.finish, Placed.span] at hbefore
  omega

theorem skipped_apart_token {s : Span} {t : Token} (hs : s ∈ skippedSpans comments source)
    (ht : t ∈ (lex comments source).tokens) : s.Before t.span ∨ t.span.Before s := by
  obtain ⟨p, hp, rfl, hcomment⟩ := of_mem_skippedSpans hs
  obtain ⟨q, hq, hspan, kind, text, htoken⟩ := of_mem_tokens ht
  rw [hspan]
  refine apart_of_mem hp hq ?_
  rw [hcomment, htoken]
  exact Content.noConfusion

theorem dropped_apart_token {i : Nat} {t : Token} (hi : i ∈ droppedPositions comments source)
    (ht : t ∈ (lex comments source).tokens) : ¬ t.span.Holds i := by
  obtain ⟨p, hp, rfl, hstray⟩ := of_mem_droppedPositions hi
  obtain ⟨q, hq, hspan, kind, text, htoken⟩ := of_mem_tokens ht
  rw [hspan]
  refine Span.not_holds (apart_of_mem hp hq ?_) p.holds_position
  rw [hstray, htoken]
  exact Content.noConfusion

theorem dropped_apart_skipped {i : Nat} {s : Span} (hi : i ∈ droppedPositions comments source)
    (hs : s ∈ skippedSpans comments source) : ¬ s.Holds i := by
  obtain ⟨p, hp, rfl, hstray⟩ := of_mem_droppedPositions hi
  obtain ⟨q, hq, rfl, hcomment⟩ := of_mem_skippedSpans hs
  refine Span.not_holds (apart_of_mem hp hq ?_) p.holds_position
  rw [hstray, hcomment]
  exact Content.noConfusion

theorem dropped_starts_none {i : Nat} {c : Char} (hi : i ∈ droppedPositions comments source)
    (hc : source[i]? = some c) :
    Text.isBlank c = false ∧ ¬ Piece.StartsToken (source.drop i) := by
  obtain ⟨p, hp, rfl, hcontent⟩ := of_mem_droppedPositions hi
  have hstands := stands_of_mem hp
  obtain ⟨htail, -, hblank, hstarts⟩ := hstands.accounts.of_stray hcontent
  rw [hstands.getElem?_eq] at hc
  cases hc
  refine ⟨hblank, ?_⟩
  rw [hstands.drop_eq, Piece.source, htail]
  exact hstarts

/-- The piece that holds a character tells what becomes of it. -/
theorem outside_tokens {i : Nat} {c : Char} (hc : source[i]? = some c)
    (houtside : ∀ t ∈ (lex comments source).tokens, ¬ t.span.Holds i) :
    Text.isBlank c = true ∨ (∃ s ∈ skippedSpans comments source, s.Holds i) ∨
      i ∈ droppedPositions comments source := by
  have hlt := (List.getElem?_eq_some_iff.mp hc).1
  obtain ⟨p, hp, hholds⟩ := exists_mem_holds comments hlt
  have hstands := stands_of_mem hp
  cases hcontent : p.piece.content with
  | blank =>
    left
    obtain ⟨htail, hblank⟩ := hstands.accounts.of_blank hcontent
    rw [Placed.eq_of_holds hholds htail, hstands.getElem?_eq] at hc
    cases hc
    exact hblank
  | comment =>
    right
    left
    exact ⟨p.span, mem_skippedSpans hp hcontent, hholds⟩
  | stray =>
    right
    right
    obtain ⟨htail, -⟩ := hstands.accounts.of_stray hcontent
    rw [Placed.eq_of_holds hholds htail]
    exact mem_droppedPositions hp hcontent
  | token kind text =>
    obtain ⟨t, ht, hspan⟩ := exists_token hp hcontent
    rw [← hspan] at hholds
    exact absurd hholds (houtside t ht)

theorem reports_eq (comments : Bool) (source : List Char) :
    (lex comments source).diagnostics.filter (·.IsStray) =
      (droppedPositions comments source).filterMap (strayAt source) := by
  rw [lex_diagnostics, List.filter_flatMap, droppedPositions, List.filterMap_filterMap,
    List.filterMap_eq_flatMap_toList]
  exact List.flatMap_congr fun p hp => (stands_of_mem hp).reports

end

/-- The lexer covers every source. -/
theorem lex_covers (comments : Bool) (source : List Char) :
    ∃ skipped dropped, Covers comments source (lex comments source) skipped dropped := by
  refine ⟨skippedSpans comments source, droppedPositions comments source, ?_⟩
  constructor
  case width_pos =>
    intro t ht
    obtain ⟨p, -, hspan, -⟩ := of_mem_tokens ht
    have hwidth : t.width = p.piece.width := congrArg Span.width hspan
    rw [hwidth]
    exact p.piece.width_pos
  case inside =>
    intro t ht
    obtain ⟨p, hp, hspan, -⟩ := of_mem_tokens ht
    have hfinish : t.position + t.width = p.span.finish := congrArg Span.finish hspan
    rw [hfinish]
    exact (stands_of_mem hp).finish_le
  case ordered => exact tokens_ordered comments source
  case skipped_on =>
    intro hne
    obtain ⟨s, hs⟩ := List.exists_mem_of_ne_nil _ hne
    obtain ⟨p, hp, -, hcontent⟩ := of_mem_skippedSpans hs
    exact ((stands_of_mem hp).accounts.of_comment hcontent).1
  case skipped_ordered => exact skippedSpans_ordered comments source
  case skipped_comment =>
    intro s hs
    obtain ⟨p, hp, rfl, hcontent⟩ := of_mem_skippedSpans hs
    rw [(stands_of_mem hp).text_eq]
    exact ((stands_of_mem hp).accounts.of_comment hcontent).2
  case skipped_apart => exact fun s hs t ht => skipped_apart_token hs ht
  case dropped_ordered => exact droppedPositions_ordered comments source
  case dropped_inside =>
    intro i hi
    obtain ⟨p, hp, rfl, -⟩ := of_mem_droppedPositions hi
    exact (List.getElem?_eq_some_iff.mp (stands_of_mem hp).getElem?_eq).1
  case dropped_stray => exact fun i hi c hc => dropped_starts_none hi hc
  case dropped_apart =>
    intro i hi
    exact ⟨fun t ht => dropped_apart_token hi ht, fun s hs => dropped_apart_skipped hi hs⟩
  case outside => exact fun i c hc houtside => outside_tokens hc houtside
  case reports => exact reports_eq comments source

end LuaChecker

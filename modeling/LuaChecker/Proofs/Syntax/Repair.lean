import LuaChecker.Proofs.Syntax.Meaning
import LuaChecker.Proofs.Syntax.Reading

/-!
# Reading a misspelt word

Where a statement could begin, a parse takes a name that makes none for the word that it is
most like. It records the name and goes on as from that word: what a turn through the block
yields from the word, it yields from the name.

* `blockTurn_of_closer`, `blockTurn_of_opener`: what a turn yields from a word;
* `yields_statementOrCloser_closes`, `yields_statementOrCloser_opens`: what a statement yields from a name
  that is like the word;
* `yields_blockTurn_misspelt`, `yields_block_misspelt`: the same is yielded from both.
-/

namespace LuaChecker.Grammar

open Parse

variable {inner : Nested} {speller : Speller} {ts us : List Token} {es : List Event}
  {closers : List Closer} {found meant : Token}

def closerTexts : List String := ["end", "until", "elseif", "else"]

theorem closer_mem_closerTexts : ∀ s ∈ closers.map Closer.text, s ∈ closerTexts := by
  intro s hs
  obtain ⟨word, -, rfl⟩ := List.mem_map.mp hs
  cases word <;> decide

/-- A turn through a block reads a statement if no closing word comes next. -/
theorem yields_blockTurn {turn : BlockTurn} (hne : ts ≠ []) (hclosers : Avoids closerTexts ts)
    (h : Yields speller (nextStatement inner closers) ts turn us es) :
    Yields speller (blockTurn inner closers false) ts turn us es := by
  refine Reads.unseen ?_ ?_
  · simpa [Cursor.atEnd, Cursor.ofList] using hne
  · exact reads_acceptCloser_bind.mpr (.inr ⟨hclosers.mono closer_mem_closerTexts, h⟩)

theorem yields_closest_bind {α β : Type} {text : α → String} {candidates : List α}
    {f : Option α → Parse β} {t : Token} {a : β}
    (h : Yields speller (f (speller.best text candidates t.text)) (t :: ts) a us es) :
    Yields speller (closest text candidates >>= f) (t :: ts) a us es :=
  (reads_bind_of_eq _ _ rfl).mpr h

theorem Misspelling.avoids {texts : List String}
    (h : Misspelling speller closers found meant ts) (hts : Lexical (found :: ts))
    (hfixed : ∀ s ∈ texts, s ∈ fixedTexts) : Avoids texts (found :: ts) :=
  avoids_of_kind hts.head h.kind rfl hfixed

/-- A name with nothing behind it that makes a statement of it is read according to what it
is like. -/
theorem yields_head_misspelt {l : Head} (h : Misspelling speller closers found meant ts)
    (hread : Yields speller (misspeltHead closers) (found :: ts) l us es) :
    Yields speller (head inner (.statement closers)) (found :: ts) l us es := by
  have htarget : seesTarget (.ofList (found :: ts)) = false := by
    rw [← Bool.not_eq_true, seesTarget_ofList_cons]
    rintro ⟨u, mid, rfl, hu⟩
    have hnot := avoids_cons.mp h.noTarget
    rcases hu with hu | hu
    · simp [hu] at hnot
    · simp [hu] at hnot
  refine Reads.seen ((seesKind_ofList_cons _ _ _).mpr h.kind) ?_
  refine Reads.unseen htarget ?_
  exact Reads.unseen (by rw [next?_ofList_cons, h.noSuffix]) hread

theorem yields_statementOrCloser_closes {word : Closer}
    (h : Misspelling speller closers found meant ts) (hts : Lexical (found :: ts))
    (hbest : speller.best Closer.text closers found.text = some word)
    (hmeant : meant.text = word.text) :
    Yields speller (statementOrCloser inner closers) (found :: ts) (some word) ts
      [typoEvent found meant] := by
  have hread : Yields speller (misspeltHead closers) (found :: ts) (.closes word) ts
      [typoEvent found meant] := by
    refine yields_closest_bind ?_
    rw [hbest, typoEvent, hmeant]
    exact Reads.record_bind trivial (reads_advance_bind.mpr Reads.pure)
  refine reads_acceptOpener_bind.mpr (.inr ⟨h.avoids hts (by decide), ?_⟩)
  exact (yields_head_misspelt h hread).andThen Reads.pure

theorem yields_statementOrCloser_opens {word : Opener}
    (h : Misspelling speller closers found meant ts) (hts : Lexical (found :: ts))
    (hnone : speller.best Closer.text closers found.text = none)
    (hbest : speller.best Opener.text Opener.all found.text = some word)
    (hmeant : meant.text = word.text) (hopened : Yields speller (opened inner word) ts () us es) :
    Yields speller (statementOrCloser inner closers) (found :: ts) none us
      (typoEvent found meant :: es) := by
  have hrespell : Yields speller (respell word.text .keyword) (found :: ts) ()
      ({ found with text := word.text, kind := .keyword } :: ts) [] :=
    (reads_of_eq _ _ rfl).mpr ⟨rfl, rfl, rfl⟩
  have hread : Yields speller (misspeltHead closers) (found :: ts) (.opens word)
      ({ found with text := word.text, kind := .keyword } :: ts) [typoEvent found meant] := by
    refine yields_closest_bind ?_
    rw [hnone]
    refine yields_closest_bind ?_
    rw [hbest, typoEvent, hmeant]
    exact Reads.record_bind trivial (hrespell.andThen Reads.pure)
  have hrest : Yields speller (do opened inner word; return (none : Option Closer)) ts none us es :=
    hopened.andThen_nil Reads.pure
  refine reads_acceptOpener_bind.mpr (.inr ⟨h.avoids hts (by decide), ?_⟩)
  exact (yields_head_misspelt h hread).andThen (reads_advance_bind.mpr hrest)

theorem blockTurn_of_closer {word : Closer} {t : Token} {turn : BlockTurn}
    (hword : word ∈ closers) (ht : t.text = word.text)
    (h : Yields speller (blockTurn inner closers false) (t :: ts) turn us es) :
    turn = .done (some word) ∧ us = ts ∧ es = [] := by
  rcases reads_look_ite.mp h with ⟨hend, -⟩ | ⟨-, h⟩
  · cases hend
  rcases reads_acceptCloser_bind.mp h with ⟨other, -, t', rest, heq, ht', hpure⟩ | ⟨hnot, -⟩
  · cases heq
    cases Closer.text_inj (ht.symm.trans ht')
    exact reads_pure.mp hpure
  · exact absurd (List.mem_map.mpr ⟨word, hword, ht.symm⟩) (avoids_cons.mp hnot)

theorem blockTurn_of_opener [inner.Built] {word : Opener} {t : Token} {turn : BlockTurn}
    (ht : t.text = word.text)
    (h : Yields speller (blockTurn inner closers false) (t :: ts) turn us es) :
    Yields speller (do opened inner word; discard (accept ";"); return .again false) ts turn us
      es := by
  have hnot : t.text ∉ "break" :: "return" :: closerTexts := by
    rw [ht]
    cases word <;> decide
  rcases reads_look_ite.mp h with ⟨hend, -⟩ | ⟨-, h⟩
  · cases hend
  rcases reads_acceptCloser_bind.mp h with ⟨closer, hcloser, _, _, heq, hclose, -⟩ | ⟨-, h⟩
  · cases heq
    have hmem := closer_mem_closerTexts _ (List.mem_map.mpr ⟨closer, hcloser, hclose.symm⟩)
    exact absurd (List.mem_cons_of_mem _ (List.mem_cons_of_mem _ hmem)) hnot
  rw [nextStatement_eq] at h
  rcases reads_accept_ite.mp h with ⟨_, _, heq, hbreak, -⟩ | ⟨-, h⟩
  · cases heq
    simp [hbreak] at hnot
  rcases reads_accept_ite.mp h with ⟨_, _, heq, hreturn, -⟩ | ⟨-, h⟩
  · cases heq
    simp [hreturn] at hnot
  obtain ⟨closed, mid, is, js, hstatement, hrest, rfl⟩ := reads_bind.mp h
  rcases reads_acceptOpener_bind.mp hstatement with ⟨other, _, _, heq, hother, hopened⟩ | ⟨hnone, -⟩
  · cases heq
    obtain rfl : word = other := Opener.text_inj (ht.symm.trans hother)
    obtain ⟨_, mid', ks, ls, hword, hpure, rfl⟩ := reads_bind.mp hopened
    obtain ⟨rfl, rfl, rfl⟩ := reads_pure.mp hpure
    have hdone : Yields speller (do discard (accept ";"); return .again false) mid turn us js :=
      hrest
    rw [List.append_nil]
    exact hword.andThen hdone
  · refine absurd ?_ (avoids_cons.mp hnone)
    rw [ht]
    exact List.mem_map.mpr ⟨word, by cases word <;> decide, rfl⟩

/-- A name that is like a word of the grammar is read as that word, and recorded. -/
theorem yields_blockTurn_misspelt [inner.Built] {turn : BlockTurn}
    (h : Misspelling speller closers found meant ts) (hts : Lexical (found :: ts))
    (hread : Yields speller (blockTurn inner closers false) (meant :: ts) turn us es) :
    Yields speller (blockTurn inner closers false) (found :: ts) turn us
      (typoEvent found meant :: es) := by
  refine yields_blockTurn (List.cons_ne_nil _ _) (h.avoids hts (by decide)) ?_
  rw [nextStatement_eq]
  refine Reads.refused (h.avoids hts (by decide)) (Reads.refused (h.avoids hts (by decide)) ?_)
  rcases h.word with ⟨word, hbest, hmeant⟩ | ⟨hnone, word, hbest, hmeant⟩
  · obtain ⟨rfl, rfl, rfl⟩ := blockTurn_of_closer (Speller.mem_of_best hbest) hmeant hread
    exact (yields_statementOrCloser_closes h hts hbest hmeant).andThen Reads.pure
  · obtain ⟨_, mid, is, js, hopened, hrest, rfl⟩ :=
      reads_bind.mp (blockTurn_of_opener hmeant hread)
    exact (yields_statementOrCloser_opens h hts hnone hbest hmeant hopened).andThen hrest

theorem yields_block_misspelt [inner.Built] {closed : Option Closer}
    (h : Misspelling speller closers found meant ts) (hts : Lexical (found :: ts))
    (hread : Yields speller (block inner closers) (meant :: ts) closed us es) :
    Yields speller (block inner closers) (found :: ts) closed us
      (typoEvent found meant :: es) := by
  rcases reads_loop.mp hread with hdone | ⟨ended, mid, is, js, hagain, hlt, hmore, rfl⟩
  · exact reads_loop.mpr (.inl (yields_blockTurn_misspelt h hts hdone))
  · have hturn := yields_blockTurn_misspelt h hts hagain
    exact reads_loop.mpr (.inr ⟨ended, mid, _, js, hturn, hlt, hmore, rfl⟩)

end LuaChecker.Grammar

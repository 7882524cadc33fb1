import LuaChecker.Proofs.Parsing.Built
import LuaChecker.Proofs.Syntax.Lexical

/-!
# What a parse reads

A parse reads a row of tokens if it yields a value and records only what is fine on the way.
Where faults are not (`Faultless`), that is the way of a parse through a valid program, and
the speller is never asked; where everything is, it is the way of any parse that does not
halt (`Yields`). What a parse reads is told by what its parts read.

* `reads_bind`: one parse after another reads one row after another;
* `reads_accept_ite`: a choice by the next token;
* `reads_many`, `Reads.loop_induction`: repetitions;
* `reads_word_bind`: a choice by the next word of a block.
-/

namespace LuaChecker

theorem Cursor.ofList_tokens (c : Cursor) : Cursor.ofList c.tokens = c :=
  Cursor.ext_tokens rfl

theorem Cursor.ofList_inj {ts us : List Token} (h : Cursor.ofList ts = .ofList us) : ts = us :=
  congrArg Cursor.tokens h

namespace Grammar

open Parse

/-- Whether an event says that something is wrong with the tokens. A function that is
declared again is not. -/
def Event.isFault : Event → Bool
  | .finding _ (.redefined _) => false
  | .finding _ _ | .headerLacks _ _ _ => true
  | .header _ _ | .parameters _ _ => false

/-- The event is no fault. -/
def Faultless (e : Event) : Prop := e.isFault = false

variable {α β σ : Type} {Fine : Event → Prop} {speller : Speller} {p : Parse α}
  {ts us : List Token} {a : α} {b : β} {es : List Event}

/-- From the tokens `ts` on, the parse yields `a`, leaves the tokens `us`, and records the
events `es`, all of which are fine. -/
def Reads (Fine : Event → Prop) (speller : Speller) (p : Parse α) (ts : List Token) (a : α)
    (us : List Token) (es : List Event) : Prop :=
  p speller (.ofList ts) = ⟨.ok a, .ofList us, es⟩ ∧ ∀ e ∈ es, Fine e

/-- The parse yields `a` and leaves the tokens `us`, whatever it records. -/
abbrev Yields (speller : Speller) (p : Parse α) (ts : List Token) (a : α) (us : List Token)
    (es : List Event) : Prop :=
  Reads (fun _ => True) speller p ts a us es

theorem Reads.eq (h : Reads Fine speller p ts a us es) :
    p speller (.ofList ts) = ⟨.ok a, .ofList us, es⟩ := h.1

theorem Reads.fine (h : Reads Fine speller p ts a us es) : ∀ e ∈ es, Fine e := h.2

theorem Reads.unique {a' : α} {us' : List Token} {es' : List Event}
    (h : Reads Fine speller p ts a us es) (h' : Reads Fine speller p ts a' us' es') :
    a = a' ∧ us = us' ∧ es = es' := by
  have heq := h.eq.symm.trans h'.eq
  injection heq with ha hus hes
  injection ha with ha
  exact ⟨ha, Cursor.ofList_inj hus, hes⟩

theorem reads_of_eq (a' : α) (mid : List Token)
    (hp : p speller (.ofList ts) = ⟨.ok a', .ofList mid, []⟩) :
    Reads Fine speller p ts a us es ↔ a = a' ∧ us = mid ∧ es = [] := by
  have hreads : Reads Fine speller p ts a' mid [] := ⟨hp, by simp⟩
  constructor
  · intro h
    exact h.unique hreads
  · rintro ⟨rfl, rfl, rfl⟩
    exact hreads

theorem reads_pure {a' : α} :
    Reads Fine speller (pure a' : Parse α) ts a us es ↔ a = a' ∧ us = ts ∧ es = [] :=
  reads_of_eq _ _ rfl

theorem Reads.pure : Reads Fine speller (pure a : Parse α) ts a ts [] :=
  reads_pure.mpr ⟨rfl, rfl, rfl⟩

theorem reads_bind {f : α → Parse β} :
    Reads Fine speller (p >>= f) ts b us es ↔ ∃ a mid is js,
      Reads Fine speller p ts a mid is ∧ Reads Fine speller (f a) mid b us js ∧ es = is ++ js := by
  constructor
  · rintro ⟨heq, hclean⟩
    rw [bind_eq] at heq
    rcases hp : p speller (.ofList ts) with ⟨outcome, rest, is⟩
    rw [hp] at heq
    cases outcome with
    | error halt => cases heq
    | ok a =>
      rcases hf : f a speller rest with ⟨outcome', rest', js⟩
      simp only [hf, Step.behind] at heq
      injection heq with hb hus hes
      subst hb hus hes
      refine ⟨a, rest.tokens, is, js, ⟨?_, fun e he => hclean e (List.mem_append_left _ he)⟩,
        ⟨?_, fun e he => hclean e (List.mem_append_right _ he)⟩, rfl⟩
      · rw [Cursor.ofList_tokens, hp]
      · rw [Cursor.ofList_tokens, hf]
  · rintro ⟨a, mid, is, js, hp, hf, rfl⟩
    refine ⟨?_, ?_⟩
    · rw [bind_eq, hp.eq]
      simp only [hf.eq, Step.behind]
    · intro e he
      rcases List.mem_append.mp he with he | he
      · exact hp.fine e he
      · exact hf.fine e he

theorem Reads.bind_eq {f : α → Parse β} (hp : Reads Fine speller p ts a us es) :
    (p >>= f) speller (.ofList ts) = (f a speller (.ofList us)).behind es := by
  rw [Parse.bind_eq, hp.eq]

theorem Reads.andThen {f : α → Parse β} {vs : List Token} {is : List Event}
    (hp : Reads Fine speller p ts a us es) (hf : Reads Fine speller (f a) us b vs is) :
    Reads Fine speller (p >>= f) ts b vs (es ++ is) :=
  reads_bind.mpr ⟨a, us, es, is, hp, hf, rfl⟩

theorem reads_of_bind_pure (h : Reads Fine speller (p >>= Pure.pure) ts a us es) :
    Reads Fine speller p ts a us es := by
  obtain ⟨_, mid, is, js, hp, hpure, rfl⟩ := reads_bind.mp h
  obtain ⟨rfl, rfl, rfl⟩ := reads_pure.mp hpure
  rwa [List.append_nil]

theorem Reads.andThen_nil {f : α → Parse β} {vs : List Token}
    (hp : Reads Fine speller p ts a us es) (hf : Reads Fine speller (f a) us b vs []) :
    Reads Fine speller (p >>= f) ts b vs es := by
  have h := hp.andThen hf
  rwa [List.append_nil] at h

theorem reads_discard {u : Unit} :
    Reads Fine speller (discard p) ts u us es ↔ ∃ a, Reads Fine speller p ts a us es := by
  rw [show discard p = p >>= fun _ => pure () from rfl, reads_bind]
  constructor
  · rintro ⟨a, mid, is, js, hp, hpure, rfl⟩
    obtain ⟨-, rfl, rfl⟩ := reads_pure.mp hpure
    exact ⟨a, by simpa using hp⟩
  · rintro ⟨a, hp⟩
    exact ⟨a, us, es, [], hp, Reads.pure, by simp⟩

theorem Reads.discard (h : Reads Fine speller p ts a us es) :
    Reads Fine speller (discard p) ts () us es :=
  reads_discard.mpr ⟨a, h⟩

/-! ## Looking and reading -/

theorem reads_bind_of_eq (a : α) (mid : List Token) {f : α → Parse β}
    (hp : p speller (.ofList ts) = ⟨.ok a, .ofList mid, []⟩) :
    Reads Fine speller (p >>= f) ts b us es ↔ Reads Fine speller (f a) mid b us es := by
  simp only [reads_bind, reads_of_eq _ _ hp]
  constructor
  · rintro ⟨a', mid', is, js, ⟨rfl, rfl, rfl⟩, hf, rfl⟩
    exact hf
  · intro hf
    exact ⟨a, mid, [], es, ⟨rfl, rfl, rfl⟩, hf, rfl⟩

theorem reads_look_bind {look : Cursor → α} {f : α → Parse β} :
    Reads Fine speller (Parse.look look >>= f) ts b us es ↔
      Reads Fine speller (f (look (.ofList ts))) ts b us es :=
  reads_bind_of_eq _ _ rfl

theorem reads_advance_bind {t : Token} {f : Unit → Parse β} :
    Reads Fine speller (advance >>= f) (t :: ts) b us es ↔ Reads Fine speller (f ()) ts b us es :=
  reads_bind_of_eq _ _ rfl

theorem Reads.of_closest_bind {text : α → String} {candidates : List α}
    {f : Option α → Parse β} (h : Reads Fine speller (closest text candidates >>= f) ts b us es) :
    ∃ found, Reads Fine speller (f found) ts b us es :=
  ⟨_, (reads_bind_of_eq _ _ rfl).mp h⟩

section advanceIf

variable {wanted : Cursor → Bool} {P : Token → Prop}

theorem reads_advanceIf {found : Bool} (hnil : wanted (.ofList []) = false)
    (hcons : ∀ t ts, wanted (.ofList (t :: ts)) = true ↔ P t) :
    Reads Fine speller (Parse.move fun c => c.advanceIf (wanted c)) ts found us es ↔
      (∃ t, ts = t :: us ∧ P t ∧ found = true ∧ es = []) ∨
        ((∀ t ∈ ts.head?, ¬ P t) ∧ found = false ∧ us = ts ∧ es = []) := by
  cases ts with
  | nil =>
    rw [reads_of_eq false []]
    · simp
    · simp [Parse.move, Cursor.advanceIf, hnil]
  | cons t ts =>
    by_cases ht : P t
    · rw [reads_of_eq true ts]
      · constructor
        · rintro ⟨rfl, rfl, rfl⟩
          exact .inl ⟨t, rfl, ht, rfl, rfl⟩
        · rintro (⟨t', heq, -, rfl, rfl⟩ | ⟨hnot, -⟩)
          · cases heq
            exact ⟨rfl, rfl, rfl⟩
          · exact absurd ht (hnot t rfl)
      · simp only [Parse.move, Cursor.advanceIf, (hcons t ts).mpr ht, if_true]
        rfl
    · rw [reads_of_eq false (t :: ts)]
      · constructor
        · intro h
          exact .inr ⟨by simpa using ht, h⟩
        · rintro (⟨t', heq, ht', -⟩ | ⟨-, h⟩)
          · cases heq
            exact absurd ht' ht
          · exact h
      · simp [Parse.move, Cursor.advanceIf, mt (hcons t ts).mp ht]

theorem reads_advanceIf_bind {f : Bool → Parse β} (hnil : wanted (.ofList []) = false)
    (hcons : ∀ t ts, wanted (.ofList (t :: ts)) = true ↔ P t) :
    Reads Fine speller ((Parse.move fun c => c.advanceIf (wanted c)) >>= f) ts b us es ↔
      (∃ t mid, ts = t :: mid ∧ P t ∧ Reads Fine speller (f true) mid b us es) ∨
        ((∀ t ∈ ts.head?, ¬ P t) ∧ Reads Fine speller (f false) ts b us es) := by
  simp only [reads_bind, reads_advanceIf hnil hcons]
  constructor
  · rintro ⟨found, mid, is, js, ⟨t, rfl, ht, rfl, rfl⟩ | ⟨hnot, rfl, rfl, rfl⟩, hf, rfl⟩
    · exact .inl ⟨t, mid, rfl, ht, hf⟩
    · exact .inr ⟨hnot, hf⟩
  · rintro (⟨t, mid, rfl, ht, hf⟩ | ⟨hnot, hf⟩)
    · exact ⟨true, mid, [], es, .inl ⟨t, rfl, ht, rfl, rfl⟩, hf, rfl⟩
    · exact ⟨false, ts, [], es, .inr ⟨hnot, rfl, rfl, rfl⟩, hf, rfl⟩

end advanceIf

theorem next?_ofList_cons (t : Token) (ts : List Token) :
    (Cursor.ofList (t :: ts)).next? = ts.head? := by
  cases ts <;> rfl

/-- A fixed text that starts no index or call belongs to no token that does. -/
theorem startsSuffix_eq_false {t : Token} {text : String} (ht : t.IsLexical)
    (htext : t.text = text) (hfixed : text ∈ fixedTexts)
    (hnot : text ∉ indexStarts ++ callStarts) : startsSuffix (some t) = false := by
  have hkind : t.kind ≠ .string := ht.kind_ne htext hfixed rfl
  simp only [List.mem_append, not_or] at hnot
  simp [startsSuffix, hkind, htext, hnot]

theorem seesTarget_ofList_cons (t : Token) (ts : List Token) :
    seesTarget (.ofList (t :: ts)) = true ↔
      ∃ u mid, ts = u :: mid ∧ (u.text = "," ∨ u.text = "=") := by
  unfold seesTarget
  rw [next?_ofList_cons]
  cases ts <;> simp

theorem startsSuffix_of_seesTarget {t : Token} (hts : Lexical ts)
    (h : seesTarget (.ofList (t :: ts)) = true) : startsSuffix ts.head? = false := by
  obtain ⟨u, rest, rfl, hu⟩ := (seesTarget_ofList_cons _ _).mp h
  rcases hu with hu | hu
  · exact startsSuffix_eq_false hts.head hu (by decide) (by decide)
  · exact startsSuffix_eq_false hts.head hu (by decide) (by decide)

theorem seesAny_ofList_cons (texts : List String) (t : Token) (ts : List Token) :
    (Cursor.ofList (t :: ts)).seesAny texts = true ↔ t.text ∈ texts := by
  simp [Cursor.seesAny, Cursor.text?, Cursor.current?, Cursor.ofList]

theorem sees_ofList_cons (text : String) (t : Token) (ts : List Token) :
    (Cursor.ofList (t :: ts)).sees text = true ↔ t.text = text := by
  simp [Cursor.sees, Cursor.text?, Cursor.current?, Cursor.ofList]

theorem sees_ofList_eq_false {text : String} (h : Avoids [text] ts) :
    (Cursor.ofList ts).sees text = false := by
  cases ts with
  | nil => rfl
  | cons t ts =>
    rw [← Bool.not_eq_true]
    intro hsees
    exact avoids_cons.mp h (List.mem_singleton.mpr ((sees_ofList_cons _ _ _).mp hsees))

theorem seesAny_ofList_eq_false {texts : List String} (h : Avoids texts ts) :
    (Cursor.ofList ts).seesAny texts = false := by
  cases ts with
  | nil => rfl
  | cons t ts =>
    rw [← Bool.not_eq_true]
    intro hsees
    exact avoids_cons.mp h ((seesAny_ofList_cons _ _ _).mp hsees)

theorem seesKind_ofList_cons (kind : Kind) (t : Token) (ts : List Token) :
    (Cursor.ofList (t :: ts)).seesKind kind = true ↔ t.kind = kind := by
  simp [Cursor.seesKind, Cursor.kind?, Cursor.current?, Cursor.ofList]

theorem avoids_singleton {text : String} :
    Avoids [text] ts ↔ ∀ t ∈ ts.head?, ¬ t.text = text := by
  simp [Avoids]

theorem seesKind_ofList_eq_false {kind : Kind} (h : AvoidsKind kind ts) :
    (Cursor.ofList ts).seesKind kind = false := by
  cases ts with
  | nil => rfl
  | cons t ts =>
    rw [← Bool.not_eq_true]
    intro hsees
    exact h t rfl ((seesKind_ofList_cons _ _ _).mp hsees)

theorem reads_acceptAny {texts : List String} {found : Bool} :
    Reads Fine speller (acceptAny texts) ts found us es ↔
      (∃ t, ts = t :: us ∧ t.text ∈ texts ∧ found = true ∧ es = []) ∨
        (Avoids texts ts ∧ found = false ∧ us = ts ∧ es = []) :=
  reads_advanceIf rfl (seesAny_ofList_cons texts)

theorem reads_accept {text : String} {found : Bool} :
    Reads Fine speller (accept text) ts found us es ↔
      (∃ t, ts = t :: us ∧ t.text = text ∧ found = true ∧ es = []) ∨
        (Avoids [text] ts ∧ found = false ∧ us = ts ∧ es = []) := by
  rw [avoids_singleton]
  exact reads_advanceIf rfl (sees_ofList_cons text)

section choice

variable {q r : Parse β}

theorem reads_acceptAny_ite {texts : List String} :
    Reads Fine speller (do if ← acceptAny texts then q else r) ts b us es ↔
      (∃ t mid, ts = t :: mid ∧ t.text ∈ texts ∧ Reads Fine speller q mid b us es) ∨
        (Avoids texts ts ∧ Reads Fine speller r ts b us es) :=
  reads_advanceIf_bind rfl (seesAny_ofList_cons texts)

theorem reads_accept_ite {text : String} :
    Reads Fine speller (do if ← accept text then q else r) ts b us es ↔
      (∃ t mid, ts = t :: mid ∧ t.text = text ∧ Reads Fine speller q mid b us es) ∨
        (Avoids [text] ts ∧ Reads Fine speller r ts b us es) := by
  rw [avoids_singleton]
  exact reads_advanceIf_bind rfl (sees_ofList_cons text)

theorem reads_acceptKind_ite {kind : Kind} :
    Reads Fine speller (do if ← acceptKind kind then q else r) ts b us es ↔
      (∃ t mid, ts = t :: mid ∧ t.kind = kind ∧ Reads Fine speller q mid b us es) ∨
        (AvoidsKind kind ts ∧ Reads Fine speller r ts b us es) :=
  reads_advanceIf_bind rfl (seesKind_ofList_cons kind)

theorem eq_of_seen {look : Cursor → Bool} (hts : look (.ofList ts) = true) :
    (do if ← Parse.look look then q else r) speller (.ofList ts) = q speller (.ofList ts) := by
  show (if look (.ofList ts) = true then q else r) speller (.ofList ts) = _
  rw [if_pos hts]

theorem eq_of_unseen {look : Cursor → Bool} (hts : look (.ofList ts) = false) :
    (do if ← Parse.look look then q else r) speller (.ofList ts) = r speller (.ofList ts) := by
  show (if look (.ofList ts) = true then q else r) speller (.ofList ts) = _
  rw [if_neg (Bool.eq_false_iff.mp hts)]

theorem reads_look_ite {look : Cursor → Bool} :
    Reads Fine speller (do if ← Parse.look look then q else r) ts b us es ↔
      (look (.ofList ts) = true ∧ Reads Fine speller q ts b us es) ∨
        (look (.ofList ts) = false ∧ Reads Fine speller r ts b us es) := by
  rw [reads_look_bind]
  cases hlook : look (.ofList ts) <;> simp

variable {t : Token} {text : String} {texts : List String} {kind : Kind} {look : Cursor → Bool}

theorem Reads.accepted (ht : t.text = text) (h : Reads Fine speller q ts b us es) :
    Reads Fine speller (do if ← accept text then q else r) (t :: ts) b us es :=
  reads_accept_ite.mpr (.inl ⟨t, ts, rfl, ht, h⟩)

theorem Reads.refused (hts : Avoids [text] ts) (h : Reads Fine speller r ts b us es) :
    Reads Fine speller (do if ← accept text then q else r) ts b us es :=
  reads_accept_ite.mpr (.inr ⟨hts, h⟩)

theorem Reads.acceptedAny (ht : t.text ∈ texts) (h : Reads Fine speller q ts b us es) :
    Reads Fine speller (do if ← acceptAny texts then q else r) (t :: ts) b us es :=
  reads_acceptAny_ite.mpr (.inl ⟨t, ts, rfl, ht, h⟩)

theorem Reads.refusedAny (hts : Avoids texts ts) (h : Reads Fine speller r ts b us es) :
    Reads Fine speller (do if ← acceptAny texts then q else r) ts b us es :=
  reads_acceptAny_ite.mpr (.inr ⟨hts, h⟩)

theorem Reads.acceptedKind (ht : t.kind = kind) (h : Reads Fine speller q ts b us es) :
    Reads Fine speller (do if ← acceptKind kind then q else r) (t :: ts) b us es :=
  reads_acceptKind_ite.mpr (.inl ⟨t, ts, rfl, ht, h⟩)

theorem Reads.refusedKind (hts : AvoidsKind kind ts) (h : Reads Fine speller r ts b us es) :
    Reads Fine speller (do if ← acceptKind kind then q else r) ts b us es :=
  reads_acceptKind_ite.mpr (.inr ⟨hts, h⟩)

theorem Reads.seen (hts : look (.ofList ts) = true) (h : Reads Fine speller q ts b us es) :
    Reads Fine speller (do if ← Parse.look look then q else r) ts b us es :=
  reads_look_ite.mpr (.inl ⟨hts, h⟩)

theorem Reads.unseen (hts : look (.ofList ts) = false) (h : Reads Fine speller r ts b us es) :
    Reads Fine speller (do if ← Parse.look look then q else r) ts b us es :=
  reads_look_ite.mpr (.inr ⟨hts, h⟩)

end choice

/-! ## Recording -/

theorem reads_record {event : Cursor → Event} {u : Unit} :
    Reads Fine speller (record event) ts u us es ↔
      us = ts ∧ es = [event (.ofList ts)] ∧ Fine (event (.ofList ts)) := by
  constructor
  · rintro ⟨heq, hclean⟩
    have hrecord : (⟨.ok (), .ofList ts, [event (.ofList ts)]⟩ : Step Unit) =
      ⟨.ok u, .ofList us, es⟩ := heq
    injection hrecord with _ hus hes
    subst hes
    exact ⟨(Cursor.ofList_inj hus).symm, rfl, hclean _ List.mem_cons_self⟩
  · rintro ⟨rfl, rfl, hclean⟩
    exact ⟨rfl, by simpa using hclean⟩

theorem Reads.record_bind {event : Cursor → Event} {f : Unit → Parse β}
    (hclean : Fine (event (.ofList ts))) (hf : Reads Fine speller (f ()) ts b us es) :
    Reads Fine speller (record event >>= f) ts b us (event (.ofList ts) :: es) :=
  reads_bind.mpr ⟨(), ts, _, es, reads_record.mpr ⟨rfl, rfl, hclean⟩, hf, rfl⟩

theorem not_reads_record_bind {event : Cursor → Event} {f : Unit → Parse β}
    (hfault : ∀ c, ¬ Fine (event c)) : ¬ Reads Fine speller (record event >>= f) ts b us es := by
  intro h
  obtain ⟨u, mid, is, js, hrecord, -, -⟩ := reads_bind.mp h
  exact hfault _ (reads_record.mp hrecord).2.2

theorem not_reads_record {event : Cursor → Event} {u : Unit} (hfault : ∀ c, ¬ Fine (event c)) :
    ¬ Reads Fine speller (record event) ts u us es := by
  intro h
  exact hfault _ (reads_record.mp h).2.2

theorem not_faultless {e : Event} (h : e.isFault = true) : ¬ Faultless e := by
  intro hclean
  cases h.symm.trans hclean

theorem not_reads_unexpected {need : Need} {u : Unit} :
    ¬ Reads Faultless speller (unexpected need) ts u us es :=
  not_reads_record fun _ => not_faultless rfl

theorem not_reads_unexpected_bind {need : Need} {f : Unit → Parse β} :
    ¬ Reads Faultless speller (unexpected need >>= f) ts b us es :=
  not_reads_record_bind fun _ => not_faultless rfl

/-! ## Words that have to be there -/

theorem Reads.demandNoting {wanted : String} {note : Option Nat → String → Event} {t : Token}
    (ht : t.text = wanted) : Reads Fine speller (demandNoting wanted note) (t :: ts) () ts [] :=
  Reads.accepted ht Reads.pure

theorem Reads.demand {wanted : String} {place : Place} {t : Token} (ht : t.text = wanted) :
    Reads Fine speller (demand wanted place) (t :: ts) () ts [] :=
  Reads.demandNoting ht

theorem Reads.demanded {wanted : String} {place : Place} {f : Unit → Parse β} {t : Token}
    (ht : t.text = wanted) (h : Reads Fine speller (f ()) ts b us es) :
    Reads Fine speller (Parse.demand wanted place >>= f) (t :: ts) b us es :=
  (Reads.demandNoting ht).andThen h

theorem Reads.demandInHeader {wanted : String} {t : Token} (ht : t.text = wanted) :
    Reads Fine speller (demandInHeader wanted) (t :: ts) () ts [] :=
  Reads.demandNoting ht

theorem Reads.demandedInHeader {wanted : String} {f : Unit → Parse β} {t : Token}
    (ht : t.text = wanted) (h : Reads Fine speller (f ()) ts b us es) :
    Reads Fine speller (Parse.demandInHeader wanted >>= f) (t :: ts) b us es :=
  (Reads.demandNoting ht).andThen h

theorem not_reads_lackNoting {wanted : String} {note : Option Nat → String → Event} {u : Unit}
    (hfault : ∀ line found, ¬ Fine (note line found)) :
    ¬ Reads Fine speller (lackNoting wanted note) ts u us es := by
  intro h
  obtain ⟨found, mid, is, js, -, h, -⟩ := reads_bind.mp (reads_look_bind.mp h)
  cases found with
  | true =>
    obtain ⟨v, mid', is', js', -, h, -⟩ := reads_bind.mp h
    exact not_reads_record (fun _ => hfault _ _) h
  | false => exact not_reads_record (fun _ => hfault _ _) h

theorem reads_demandNoting {wanted : String} {note : Option Nat → String → Event} {u : Unit}
    (hfault : ∀ line found, ¬ Fine (note line found)) :
    Reads Fine speller (demandNoting wanted note) ts u us es ↔
      ∃ t, ts = t :: us ∧ t.text = wanted ∧ es = [] := by
  constructor
  · intro h
    rcases reads_accept_ite.mp h with ⟨t, mid, rfl, ht, h⟩ | ⟨-, h⟩
    · obtain ⟨-, rfl, rfl⟩ := reads_pure.mp h
      exact ⟨t, rfl, ht, rfl⟩
    · exact absurd h (not_reads_lackNoting hfault)
  · rintro ⟨t, rfl, ht, rfl⟩
    exact Reads.demandNoting ht

theorem reads_demandNoting_bind {wanted : String} {note : Option Nat → String → Event}
    {f : Unit → Parse β} (hfault : ∀ line found, ¬ Fine (note line found)) :
    Reads Fine speller (demandNoting wanted note >>= f) ts b us es ↔
      ∃ t mid, ts = t :: mid ∧ t.text = wanted ∧ Reads Fine speller (f ()) mid b us es := by
  simp only [reads_bind, reads_demandNoting hfault]
  constructor
  · rintro ⟨u, mid, is, js, ⟨t, rfl, ht, rfl⟩, hf, rfl⟩
    exact ⟨t, mid, rfl, ht, hf⟩
  · rintro ⟨t, mid, rfl, ht, hf⟩
    exact ⟨(), mid, [], es, ⟨t, rfl, ht, rfl⟩, hf, rfl⟩

theorem reads_demand {wanted : String} {place : Place} {u : Unit} :
    Reads Faultless speller (demand wanted place) ts u us es ↔
      ∃ t, ts = t :: us ∧ t.text = wanted ∧ es = [] :=
  reads_demandNoting fun _ _ => not_faultless rfl

theorem reads_demand_bind {wanted : String} {place : Place} {f : Unit → Parse β} :
    Reads Faultless speller (demand wanted place >>= f) ts b us es ↔
      ∃ t mid, ts = t :: mid ∧ t.text = wanted ∧ Reads Faultless speller (f ()) mid b us es :=
  reads_demandNoting_bind fun _ _ => not_faultless rfl

theorem reads_demandInHeader {wanted : String} {u : Unit} :
    Reads Faultless speller (demandInHeader wanted) ts u us es ↔
      ∃ t, ts = t :: us ∧ t.text = wanted ∧ es = [] :=
  reads_demandNoting fun _ _ => not_faultless rfl

theorem reads_demandInHeader_bind {wanted : String} {f : Unit → Parse β} :
    Reads Faultless speller (demandInHeader wanted >>= f) ts b us es ↔
      ∃ t mid, ts = t :: mid ∧ t.text = wanted ∧ Reads Faultless speller (f ()) mid b us es :=
  reads_demandNoting_bind fun _ _ => not_faultless rfl

/-! ## Repetition -/

theorem reads_loop {step : σ → Parse (Turn σ β)} {s : σ} :
    Reads Fine speller (loop step s) ts b us es ↔
      Reads Fine speller (step s) ts (.done b) us es ∨
        ∃ s' mid is js, Reads Fine speller (step s) ts (.again s') mid is ∧ mid.length < ts.length ∧
          Reads Fine speller (loop step s') mid b us js ∧ es = is ++ js := by
  constructor
  · rintro ⟨heq, hclean⟩
    rw [loop_eq] at heq
    rcases hstep : step s speller (.ofList ts) with ⟨outcome, rest, is⟩
    rw [hstep] at heq
    rcases outcome with halt | turn
    · cases heq
    rcases turn with s' | b'
    · simp only at heq
      split at heq
      case isTrue hlt =>
        rcases hloop : loop step s' speller rest with ⟨outcome', rest', js⟩
        simp only [hloop, Step.behind] at heq
        injection heq with hb hus hes
        subst hb hus hes
        refine .inr ⟨s', rest.tokens, is, js,
          ⟨?_, fun e he => hclean e (List.mem_append_left _ he)⟩, ?_,
          ⟨?_, fun e he => hclean e (List.mem_append_right _ he)⟩, rfl⟩
        · rw [Cursor.ofList_tokens, hstep]
        · rw [← rest.size_eq]
          exact hlt
        · rw [Cursor.ofList_tokens, hloop]
      case isFalse => cases heq
    · injection heq with hb hus hes
      injection hb with hb
      subst hb hus hes
      exact .inl ⟨hstep, hclean⟩
  · rintro (h | ⟨s', mid, is, js, hstep, hlt, hloop, rfl⟩)
    · refine ⟨?_, h.fine⟩
      rw [loop_eq, h.eq]
    · refine ⟨?_, ?_⟩
      · rw [loop_eq, hstep.eq]
        simp only
        rw [if_pos (show (Cursor.ofList mid).size < (Cursor.ofList ts).size from hlt), hloop.eq]
        rfl
      · intro e he
        rcases List.mem_append.mp he with he | he
        · exact hstep.fine e he
        · exact hloop.fine e he

/-- What holds at the last turn of a loop and is kept from each turn to the one before it
holds at the first. -/
theorem Reads.loop_induction {step : σ → Parse (Turn σ β)} {s : σ}
    {motive : σ → List Token → Prop} (h : Reads Fine speller (loop step s) ts b us es)
    (done : ∀ {s ts es}, Reads Fine speller (step s) ts (.done b) us es → motive s ts)
    (again : ∀ {s s' ts mid es}, Reads Fine speller (step s) ts (.again s') mid es →
      motive s' mid → motive s ts) : motive s ts := by
  induction hn : ts.length using Nat.strongRecOn generalizing s ts es with
  | _ n ih =>
    subst hn
    rcases reads_loop.mp h with h | ⟨s', mid, is, js, hstep, hlt, hloop, -⟩
    · exact done h
    · exact again hstep (ih _ hlt hloop rfl)

theorem reads_many {step : Parse Bool} {u : Unit} :
    Reads Fine speller (many step) ts u us es ↔
      Reads Fine speller step ts false us es ∨
        ∃ mid is js, Reads Fine speller step ts true mid is ∧ mid.length < ts.length ∧
          Reads Fine speller (many step) mid u us js ∧ es = is ++ js := by
  have hturn {turn : Turn Unit Unit} {ts us : List Token} {es : List Event} :
      Reads Fine speller (do return if ← step then .again () else .done ()) ts turn us es ↔
        ∃ more, Reads Fine speller step ts more us es ∧
          turn = if more then .again () else .done () := by
    rw [reads_bind]
    constructor
    · rintro ⟨more, mid, is, js, hstep, hpure, rfl⟩
      obtain ⟨rfl, rfl, rfl⟩ := reads_pure.mp hpure
      exact ⟨more, by simpa using hstep, rfl⟩
    · rintro ⟨more, hstep, rfl⟩
      exact ⟨more, us, es, [], hstep, Reads.pure, by simp⟩
  rw [many, reads_loop]
  simp only [hturn]
  constructor
  · rintro (⟨more, hstep, hmore⟩ | ⟨s', mid, is, js, ⟨more, hstep, hmore⟩, hlt, hloop, rfl⟩)
    · cases more with
      | true => cases hmore
      | false => exact .inl hstep
    · cases more with
      | true => exact .inr ⟨mid, is, js, hstep, hlt, hloop, rfl⟩
      | false => cases hmore
  · rintro (hstep | ⟨mid, is, js, hstep, hlt, hloop, rfl⟩)
    · exact .inl ⟨false, hstep, rfl⟩
    · exact .inr ⟨(), mid, is, js, ⟨true, hstep, rfl⟩, hlt, hloop, rfl⟩

theorem Reads.many_induction {step : Parse Bool} {u : Unit} {motive : List Token → Prop}
    (h : Reads Fine speller (many step) ts u us es)
    (done : ∀ {ts es}, Reads Fine speller step ts false us es → motive ts)
    (again : ∀ {ts mid es}, Reads Fine speller step ts true mid es → motive mid → motive ts) :
    motive ts := by
  induction hn : ts.length using Nat.strongRecOn generalizing ts es with
  | _ n ih =>
    subst hn
    rcases reads_many.mp h with h | ⟨mid, is, js, hstep, hlt, hloop, -⟩
    · exact done h
    · exact again hstep (ih _ hlt hloop rfl)

theorem reads_afterComma {p : Parse Unit} {more : Bool} :
    Reads Fine speller (afterComma p) ts more us es ↔
      (∃ t mid, ts = t :: mid ∧ t.text = "," ∧ Reads Fine speller p mid () us es ∧ more = true) ∨
        (Avoids [","] ts ∧ more = false ∧ us = ts ∧ es = []) := by
  rw [afterComma, reads_accept_ite]
  simp only [reads_pure, reads_bind]
  constructor
  · rintro (⟨t, mid, rfl, ht, u, mid', is, js, hp, ⟨rfl, rfl, rfl⟩, rfl⟩ | ⟨havoids, hpure⟩)
    · exact .inl ⟨t, mid, rfl, ht, by simpa using hp, rfl⟩
    · exact .inr ⟨havoids, hpure⟩
  · rintro (⟨t, mid, rfl, ht, hp, rfl⟩ | ⟨havoids, hpure⟩)
    · exact .inl ⟨t, mid, rfl, ht, (), us, es, [], hp, ⟨rfl, rfl, rfl⟩, by simp⟩
    · exact .inr ⟨havoids, hpure⟩

theorem Reads.name {t : Token} (ht : t.kind = .name) :
    Reads Fine speller name (t :: ts) t.text ts [] :=
  reads_look_bind.mpr (Reads.acceptedKind ht Reads.pure)

theorem Reads.named {f : String → Parse β} {t : Token} (ht : t.kind = .name)
    (h : Reads Fine speller (f t.text) ts b us es) :
    Reads Fine speller (Grammar.name >>= f) (t :: ts) b us es :=
  (Reads.name ht).andThen h

theorem reads_name {text : String} :
    Reads Faultless speller name ts text us es ↔
      ∃ t, ts = t :: us ∧ t.kind = .name ∧ text = t.text ∧ es = [] := by
  constructor
  · intro h
    rcases reads_acceptKind_ite.mp (reads_look_bind.mp h) with ⟨t, mid, rfl, ht, h⟩ | ⟨-, h⟩
    · obtain ⟨rfl, rfl, rfl⟩ := reads_pure.mp h
      exact ⟨t, rfl, ht, rfl, rfl⟩
    · exact absurd h not_reads_unexpected_bind
  · rintro ⟨t, rfl, ht, rfl, rfl⟩
    exact Reads.name ht

theorem reads_name_bind {f : String → Parse β} :
    Reads Faultless speller (name >>= f) ts b us es ↔
      ∃ t mid, ts = t :: mid ∧ t.kind = .name ∧ Reads Faultless speller (f t.text) mid b us es := by
  simp only [reads_bind, reads_name]
  constructor
  · rintro ⟨text, mid, is, js, ⟨t, rfl, ht, rfl, rfl⟩, hf, rfl⟩
    exact ⟨t, mid, rfl, ht, hf⟩
  · rintro ⟨t, mid, rfl, ht, hf⟩
    exact ⟨t.text, mid, [], es, ⟨t, rfl, ht, rfl, rfl⟩, hf, rfl⟩

/-! ## Words of blocks -/

/-- A parse takes one of these words if it comes next. It need not be said in which order they
are tried: what the parse does tells which word it is. -/
theorem reads_word_bind {γ : Type} {text : γ → String} {words : List γ} {p : Parse (Option γ)}
    {f : Option γ → Parse β}
    (hsome : ∀ word ∈ words, ∀ t mid, t.text = text word →
      p speller (.ofList (t :: mid)) = ⟨.ok (some word), .ofList mid, []⟩)
    (hnone : ∀ ts, Avoids (words.map text) ts →
      p speller (.ofList ts) = ⟨.ok none, .ofList ts, []⟩) :
    Reads Fine speller (p >>= f) ts b us es ↔
      (∃ word ∈ words, ∃ t mid, ts = t :: mid ∧ t.text = text word ∧
        Reads Fine speller (f (some word)) mid b us es) ∨
        (Avoids (words.map text) ts ∧ Reads Fine speller (f none) ts b us es) := by
  by_cases havoids : Avoids (words.map text) ts
  · rw [reads_bind_of_eq none ts (hnone ts havoids)]
    constructor
    · exact fun h => .inr ⟨havoids, h⟩
    · rintro (⟨word, hword, t, mid, rfl, ht, -⟩ | ⟨-, h⟩)
      · exact absurd (List.mem_map.mpr ⟨word, hword, ht.symm⟩) (avoids_cons.mp havoids)
      · exact h
  · obtain ⟨word, hword, t, mid, rfl, ht⟩ :
        ∃ word ∈ words, ∃ t mid, ts = t :: mid ∧ t.text = text word := by
      cases ts with
      | nil => exact absurd Avoids.nil havoids
      | cons t mid =>
        rw [avoids_cons, Decidable.not_not] at havoids
        obtain ⟨word, hword, htext⟩ := List.mem_map.mp havoids
        exact ⟨word, hword, t, mid, rfl, htext.symm⟩
    have hread := hsome word hword t mid ht
    rw [reads_bind_of_eq (some word) mid hread]
    constructor
    · exact fun h => .inl ⟨word, hword, t, mid, rfl, ht, h⟩
    · rintro (⟨other, hother, t', mid', heq, ht', h⟩ | ⟨hnot, -⟩)
      · cases heq
        cases hread.symm.trans (hsome other hother t mid ht')
        exact h
      · exact absurd hnot havoids

/-! ### Closing words -/

/-- How a row that starts with the tokens `mid` closes a block: with one of the closing
words, if there are any, or else with the end of the input. -/
def ClosedBy (closers : List Closer) (closed : Option Closer) (mid us : List Token) : Prop :=
  match closed with
  | some word => word ∈ closers ∧ ∃ t, mid = t :: us ∧ t.text = word.text
  | none => closers = [] ∧ mid = [] ∧ us = []

theorem ClosedBy.lexical {closers : List Closer} {closed : Option Closer} {mid us : List Token}
    (h : ClosedBy closers closed mid us) (hmid : Lexical mid) : Lexical us := by
  cases closed with
  | some word =>
    obtain ⟨-, t, rfl, -⟩ := h
    exact hmid.tail
  | none =>
    obtain ⟨-, rfl, rfl⟩ := h
    exact hmid

theorem Closer.text_inj {word other : Closer} (h : word.text = other.text) : word = other := by
  cases word <;> cases other <;> first | rfl | exact absurd h (by decide)

theorem acceptCloser_of_mem {closers : List Closer} {word : Closer} {t : Token}
    (hword : word ∈ closers) (ht : t.text = word.text) :
    acceptCloser closers speller (.ofList (t :: ts)) = ⟨.ok (some word), .ofList ts, []⟩ := by
  have hfind : closers.find? (fun word => (Cursor.ofList (t :: ts)).sees word.text) =
      some word := by
    cases h : closers.find? fun word => (Cursor.ofList (t :: ts)).sees word.text with
    | none =>
      exact absurd ((sees_ofList_cons _ _ _).mpr ht) (List.find?_eq_none.mp h word hword)
    | some other =>
      have hsees := List.find?_some h
      rw [Closer.text_inj (ht.symm.trans ((sees_ofList_cons _ _ _).mp hsees))]
  simp only [acceptCloser, Parse.move, hfind]
  rfl

theorem acceptCloser_of_avoids {closers : List Closer} (h : Avoids (closers.map Closer.text) ts) :
    acceptCloser closers speller (.ofList ts) = ⟨.ok none, .ofList ts, []⟩ := by
  have hfind : closers.find? (fun word => (Cursor.ofList ts).sees word.text) = none := by
    refine List.find?_eq_none.mpr fun word hword hsees => ?_
    cases ts with
    | nil => cases hsees
    | cons t mid =>
      have ht := (sees_ofList_cons _ _ _).mp hsees
      exact avoids_cons.mp h (List.mem_map.mpr ⟨word, hword, ht.symm⟩)
  simp only [acceptCloser, Parse.move, hfind]

theorem reads_acceptCloser_bind {closers : List Closer} {f : Option Closer → Parse β} :
    Reads Fine speller (acceptCloser closers >>= f) ts b us es ↔
      (∃ word ∈ closers, ∃ t mid, ts = t :: mid ∧ t.text = word.text ∧
        Reads Fine speller (f (some word)) mid b us es) ∨
        (Avoids (closers.map Closer.text) ts ∧ Reads Fine speller (f none) ts b us es) :=
  reads_word_bind (fun _ hword _ _ ht => acceptCloser_of_mem hword ht)
    fun _ h => acceptCloser_of_avoids h

/-! ### Opening words -/

theorem Opener.mem_all (word : Opener) : word ∈ Opener.all := by
  cases word <;> decide

theorem Opener.text_inj {word other : Opener} (h : word.text = other.text) : word = other := by
  cases word <;> cases other <;> first | rfl | exact absurd h (by decide)

theorem Opener.ofText?_eq_some {text : String} {word : Opener} :
    Opener.ofText? text = some word ↔ text = word.text := by
  constructor
  · intro h
    simpa [eq_comm] using List.find?_some h
  · rintro rfl
    cases word <;> rfl

theorem acceptOpener_of_text {word : Opener} {t : Token} (ht : t.text = word.text) :
    acceptOpener speller (.ofList (t :: ts)) = ⟨.ok (some word), .ofList ts, []⟩ := by
  simp [acceptOpener, Parse.move, Cursor.text?, Cursor.current?, Cursor.ofList,
    Opener.ofText?_eq_some.mpr ht, Cursor.advance]

theorem acceptOpener_of_avoids (h : Avoids (Opener.all.map Opener.text) ts) :
    acceptOpener speller (.ofList ts) = ⟨.ok none, .ofList ts, []⟩ := by
  cases ts with
  | nil => rfl
  | cons t mid =>
    have hnone : Opener.ofText? t.text = none := by
      rw [Option.eq_none_iff_forall_ne_some]
      intro word hword
      have htext := Opener.ofText?_eq_some.mp hword
      exact avoids_cons.mp h (List.mem_map.mpr ⟨word, word.mem_all, htext.symm⟩)
    simp [acceptOpener, Parse.move, Cursor.text?, Cursor.current?, Cursor.ofList, hnone]

theorem reads_acceptOpener_bind {f : Option Opener → Parse β} :
    Reads Fine speller (acceptOpener >>= f) ts b us es ↔
      (∃ word t mid, ts = t :: mid ∧ t.text = Opener.text word ∧
        Reads Fine speller (f (some word)) mid b us es) ∨
        (Avoids (Opener.all.map Opener.text) ts ∧ Reads Fine speller (f none) ts b us es) := by
  rw [reads_word_bind (fun word _ _ _ ht => acceptOpener_of_text ht)
    fun _ h => acceptOpener_of_avoids h]
  simp only [Opener.mem_all, true_and]

end Grammar

end LuaChecker

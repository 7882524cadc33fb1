import LuaChecker.Proofs.Syntax.Cut
import LuaChecker.Proofs.Syntax.Reading

/-!
# Parses that stop

Where the input ends in a block that is not closed, the parse of the block records that and
halts, and this ends every parse around it. `Stops` says so of a parse: what it has recorded
until then are headers of functions, and behind them there is this one finding. A parse
stops if the part of it stops that it gets to.

* `Stops.bind`, `Reads.thenStops`: the part that stops comes first, or it comes later;
* `Stops.accepted` and the lemmas near it: it comes behind a choice by the next token;
* `Stops.loop_first`, `Reads.loopStops`: it comes in the first turn of a loop, or in a later
  one.
-/

namespace LuaChecker.Grammar

open Parse

variable {α β σ : Type} {speller : Speller} {p : Parse α} {ts us : List Token} {a : α}
  {hs is : List Header}

/-- From the tokens `ts` on, the parse halts at the end of the input, in a block that is not
closed there; `hs` are the headers until then. -/
def Stops (speller : Speller) (p : Parse α) (ts : List Token) (hs : List Header) : Prop :=
  p speller (.ofList ts) =
    ⟨.error .endOfInput, .ofList [], headerEvents hs ++ [.finding none .notClosed]⟩

theorem Stops.eq (h : Stops speller p ts hs) :
    p speller (.ofList ts) =
      ⟨.error .endOfInput, .ofList [], headerEvents hs ++ [.finding none .notClosed]⟩ := h

theorem Stops.bind {f : α → Parse β} (h : Stops speller p ts hs) :
    Stops speller (p >>= f) ts hs := by
  rw [Stops, bind_eq, h.eq]

theorem Stops.discard (h : Stops speller p ts hs) : Stops speller (discard p) ts hs :=
  h.bind

/-- What is the same as a parse that stops, but for headers in front, stops. -/
theorem Stops.behind {q : Parse α} (h : Stops speller q us is)
    (heq : p speller (.ofList ts) = (q speller (.ofList us)).behind (headerEvents hs)) :
    Stops speller p ts (hs ++ is) := by
  rw [Stops, heq, h.eq]
  simp only [Step.behind, headerEvents_append, List.append_assoc]

theorem Reads.thenStops {f : α → Parse β} (hp : Yields speller p ts a us (headerEvents hs))
    (hf : Stops speller (f a) us is) : Stops speller (p >>= f) ts (hs ++ is) :=
  hf.behind hp.bind_eq

theorem Reads.thenStops_nil {f : α → Parse β} (hp : Yields speller p ts a us [])
    (hf : Stops speller (f a) us is) : Stops speller (p >>= f) ts is :=
  Reads.thenStops (show Yields speller p ts a us (headerEvents []) from hp) hf

theorem Stops.advanced {f : Unit → Parse β} {t : Token} (h : Stops speller (f ()) ts hs) :
    Stops speller (advance >>= f) (t :: ts) hs :=
  Reads.thenStops_nil (p := advance) ((reads_of_eq () ts rfl).mpr ⟨rfl, rfl, rfl⟩) h

/-! ## Choices -/

section choice

variable {q r : Parse β} {t : Token} {text : String} {texts : List String} {kind : Kind}
  {look : Cursor → Bool}

theorem Stops.accepted (ht : t.text = text) (h : Stops speller q ts hs) :
    Stops speller (do if ← accept text then q else r) (t :: ts) hs :=
  Reads.thenStops_nil (reads_accept.mpr (.inl ⟨t, rfl, ht, rfl, rfl⟩)) h

theorem Stops.refused (hts : Avoids [text] ts) (h : Stops speller r ts hs) :
    Stops speller (do if ← accept text then q else r) ts hs :=
  Reads.thenStops_nil (reads_accept.mpr (.inr ⟨hts, rfl, rfl, rfl⟩)) h

theorem Stops.acceptedAny (ht : t.text ∈ texts) (h : Stops speller q ts hs) :
    Stops speller (do if ← acceptAny texts then q else r) (t :: ts) hs :=
  Reads.thenStops_nil (reads_acceptAny.mpr (.inl ⟨t, rfl, ht, rfl, rfl⟩)) h

theorem Stops.refusedAny (hts : Avoids texts ts) (h : Stops speller r ts hs) :
    Stops speller (do if ← acceptAny texts then q else r) ts hs :=
  Reads.thenStops_nil (reads_acceptAny.mpr (.inr ⟨hts, rfl, rfl, rfl⟩)) h

theorem Stops.refusedKind (hts : AvoidsKind kind ts) (h : Stops speller r ts hs) :
    Stops speller (do if ← acceptKind kind then q else r) ts hs :=
  Reads.thenStops_nil
    ((reads_advanceIf rfl (seesKind_ofList_cons kind)).mpr (.inr ⟨hts, rfl, rfl, rfl⟩)) h

theorem Stops.seen (hts : look (.ofList ts) = true) (h : Stops speller q ts hs) :
    Stops speller (do if ← Parse.look look then q else r) ts hs :=
  (eq_of_seen hts).trans h

theorem Stops.unseen (hts : look (.ofList ts) = false) (h : Stops speller r ts hs) :
    Stops speller (do if ← Parse.look look then q else r) ts hs :=
  (eq_of_unseen hts).trans h

end choice

/-! ## Words of blocks -/

theorem Stops.starts {f : Option Opener → Parse β} {word : Opener} {t : Token}
    (ht : t.text = word.text) (h : Stops speller (f (some word)) ts hs) :
    Stops speller (acceptOpener >>= f) (t :: ts) hs :=
  Reads.thenStops_nil (reads_of_bind_pure
    (reads_acceptOpener_bind.mpr (.inl ⟨word, t, ts, rfl, ht, Reads.pure⟩))) h

theorem Stops.notStarts {f : Option Opener → Parse β} (hts : Avoids (Opener.all.map Opener.text) ts)
    (h : Stops speller (f none) ts hs) : Stops speller (acceptOpener >>= f) ts hs :=
  Reads.thenStops_nil (reads_of_bind_pure (reads_acceptOpener_bind.mpr (.inr ⟨hts, Reads.pure⟩))) h

theorem Stops.notCloses {closers : List Closer} {f : Option Closer → Parse β}
    (hts : Avoids (closers.map Closer.text) ts) (h : Stops speller (f none) ts hs) :
    Stops speller (acceptCloser closers >>= f) ts hs :=
  Reads.thenStops_nil (reads_of_bind_pure (reads_acceptCloser_bind.mpr (.inr ⟨hts, Reads.pure⟩))) h

/-! ## Repetition -/

theorem Stops.loop_first {step : σ → Parse (Turn σ β)} {s : σ} (h : Stops speller (step s) ts hs) :
    Stops speller (loop step s) ts hs := by
  rw [Stops, loop_eq, h.eq]

/-- Behind a turn that goes on, a loop is the rest of it. -/
theorem Reads.loop_eq {es : List Event} {step : σ → Parse (Turn σ β)} {s s' : σ}
    (hturn : Yields speller (step s) ts (.again s') us es) (hlt : us.length < ts.length) :
    loop step s speller (.ofList ts) = (loop step s' speller (.ofList us)).behind es := by
  rw [Parse.loop_eq, hturn.eq]
  exact if_pos (show (Cursor.ofList us).size < (Cursor.ofList ts).size from hlt)

theorem Reads.loopStops {step : σ → Parse (Turn σ β)} {s s' : σ}
    (hturn : Yields speller (step s) ts (.again s') us (headerEvents hs))
    (hlt : us.length < ts.length) (h : Stops speller (loop step s') us is) :
    Stops speller (loop step s) ts (hs ++ is) :=
  h.behind (hturn.loop_eq hlt)

/-- The loop need not be what stops: it may be what follows the loop. -/
theorem Reads.loopStops_bind {γ : Type} {step : σ → Parse (Turn σ β)} {s s' : σ} {f : β → Parse γ}
    (hturn : Yields speller (step s) ts (.again s') us (headerEvents hs))
    (hlt : us.length < ts.length) (h : Stops speller (loop step s' >>= f) us is) :
    Stops speller (loop step s >>= f) ts (hs ++ is) := by
  refine h.behind ?_
  rw [Parse.bind_eq, hturn.loop_eq hlt, Parse.bind_eq]
  rcases loop step s' speller (.ofList us) with ⟨outcome, rest, es⟩
  cases outcome with
  | error halt => rfl
  | ok b => simp only [Step.behind, List.append_assoc]

theorem Stops.many_first {step : Parse Bool} (h : Stops speller step ts hs) :
    Stops speller (many step) ts hs :=
  Stops.loop_first h.bind

theorem Reads.manyStops {step : Parse Bool}
    (hturn : Yields speller step ts true us (headerEvents hs)) (hlt : us.length < ts.length)
    (h : Stops speller (many step) us is) :
    Stops speller (many step) ts (hs ++ is) :=
  Reads.loopStops (hturn.andThen_nil Reads.pure) hlt h

theorem Stops.afterComma {p : Parse Unit} {t : Token} (ht : t.text = ",")
    (h : Stops speller p ts hs) : Stops speller (afterComma p) (t :: ts) hs :=
  Stops.accepted ht h.bind

end LuaChecker.Grammar

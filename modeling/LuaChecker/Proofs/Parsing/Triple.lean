import LuaChecker.Grammar.Parse

/-!
# Triples about parses

A statement about a parse says what holds where it starts, what holds where it yields a
value, and what holds where it halts. It speaks about the cursor and about all events
recorded so far, so statements compose along the parses.

* `triple_bind`, `triple_ite`: one parse after another, and a choice;
* `triple_move`, `triple_look`, `triple_record`: what the smallest parses do, as conditions
  on the place where they start;
* `triple_loop`: an invariant that every turn of a loop keeps holds at its end, if every
  turn but the last one reads a token.
-/

namespace LuaChecker.Grammar

/-- Something that may hold of a cursor and of the events recorded in front of it. -/
abbrev Assertion : Type := Cursor → List Event → Prop

/-- Something that may hold where a parse halted. -/
abbrev HaltAssertion : Type := Halt → Assertion

variable {α β σ : Type} {E : HaltAssertion} {P P' : Assertion} {Q Q' : α → Assertion}

/-- What a parse leads to, after the events `past`, is as the assertions say. -/
def Step.Meets (E : HaltAssertion) (Q : α → Assertion) (past : List Event) : Step α → Prop
  | ⟨.ok a, rest, events⟩ => Q a rest (past ++ events)
  | ⟨.error halt, rest, events⟩ => E halt rest (past ++ events)

theorem Step.Meets.behind {s : Step α} {past events : List Event}
    (h : s.Meets E Q (past ++ events)) : (s.behind events).Meets E Q past := by
  obtain ⟨outcome, rest, later⟩ := s
  cases outcome with
  | error halt => simpa [Step.behind, Step.Meets] using h
  | ok a => simpa [Step.behind, Step.Meets] using h

/-- From wherever `P` holds, the parse either yields a value and leads to where `Q` holds of
it, or halts and `E` holds. -/
def Triple (E : HaltAssertion) (P : Assertion) (p : Parse α) (Q : α → Assertion) : Prop :=
  ∀ speller c past, P c past → (p speller c).Meets E Q past

theorem triple_mono {p : Parse α} (h : Triple E P p Q) (hP : ∀ c past, P' c past → P c past)
    (hQ : ∀ a c past, Q a c past → Q' a c past) : Triple E P' p Q' := by
  intro speller c past hp
  have hs := h speller c past (hP c past hp)
  generalize p speller c = s at hs ⊢
  obtain ⟨outcome, rest, events⟩ := s
  cases outcome with
  | error halt => exact hs
  | ok a => exact hQ a rest _ hs

theorem triple_pre {p : Parse α} (h : Triple E P p Q) (hP : ∀ c past, P' c past → P c past) :
    Triple E P' p Q :=
  triple_mono h hP fun _ _ _ hq => hq

theorem triple_post {p : Parse α} (h : Triple E P p Q)
    (hQ : ∀ a c past, Q a c past → Q' a c past) : Triple E P p Q' :=
  triple_mono h (fun _ _ hp => hp) hQ

theorem triple_halted {E' : HaltAssertion} {p : Parse α} (h : Triple E P p Q)
    (hE : ∀ halt c past, E halt c past → E' halt c past) : Triple E' P p Q := by
  intro speller c past hp
  have hs := h speller c past hp
  generalize p speller c = s at hs ⊢
  obtain ⟨outcome, rest, events⟩ := s
  cases outcome with
  | error halt => exact hE halt rest _ hs
  | ok a => exact hs

/-- What does not depend on the place may be assumed. -/
theorem triple_fact {fact : Prop} {p : Parse α} (h : fact → Triple E P p Q) :
    Triple E (fun c past => P c past ∧ fact) p Q :=
  fun speller c past hp => h hp.2 speller c past hp.1

theorem triple_or {p : Parse α} (h : Triple E P p Q) (h' : Triple E P' p Q) :
    Triple E (fun c past => P c past ∨ P' c past) p Q := by
  intro speller c past hp
  rcases hp with hp | hp
  · exact h speller c past hp
  · exact h' speller c past hp

theorem triple_pure {a : α} : Triple E (Q a) (pure a) Q := by
  intro speller c past hq
  simpa [Parse.pure_eq, Step.Meets] using hq

theorem triple_pure_keep {a : α} : Triple E P (pure a) fun _ => P :=
  triple_pure (Q := fun _ => P)

theorem triple_bind {p : Parse α} {f : α → Parse β} {R : β → Assertion} (hp : Triple E P p Q)
    (hf : ∀ a, Triple E (Q a) (f a) R) : Triple E P (p >>= f) R := by
  intro speller c past h
  have hs := hp speller c past h
  rw [Parse.bind_eq]
  generalize p speller c = s at hs ⊢
  obtain ⟨outcome, rest, events⟩ := s
  cases outcome with
  | error halt => exact hs
  | ok a => exact (hf a speller rest _ hs).behind

theorem triple_ite {b : Bool} {p q : Parse α} (hp : b = true → Triple E P p Q)
    (hq : b = false → Triple E P q Q) : Triple E P (if b then p else q) Q := by
  cases b with
  | true => exact hp rfl
  | false => exact hq rfl

theorem triple_discard {p : Parse α} {R : Unit → Assertion} (h : Triple E P p fun _ => R ()) :
    Triple E P (discard p) R :=
  triple_bind h fun _ => triple_pure

theorem triple_look {f : Cursor → α} :
    Triple E (fun c past => Q (f c) c past) (Parse.look f) Q := by
  intro speller c past h
  simpa [Parse.look, Step.Meets] using h

theorem triple_look_eq {f : Cursor → α} :
    Triple E P (Parse.look f) fun a c past => P c past ∧ f c = a :=
  triple_pre triple_look fun _ _ h => ⟨h, rfl⟩

theorem triple_look_keep {f : Cursor → α} : Triple E P (Parse.look f) fun _ => P :=
  triple_pre triple_look fun _ _ h => h

theorem triple_move {f : Cursor → α × Cursor} :
    Triple E (fun c past => Q (f c).1 (f c).2 past) (Parse.move f) Q := by
  intro speller c past h
  simpa [Parse.move, Step.Meets] using h

theorem triple_record {event : Cursor → Event} {R : Unit → Assertion} :
    Triple E (fun c past => R () c (past ++ [event c])) (Parse.record event) R := by
  intro speller c past h
  exact h

theorem triple_halt {halt : Halt} :
    Triple E (E halt) (Parse.halt halt : Parse α) Q := by
  intro speller c past h
  simpa [Parse.halt, Step.Meets] using h

/-- Nothing is known about the answers of the speller. -/
theorem triple_resembles {wanted : String} :
    Triple E P (Parse.resembles wanted) fun _ => P := by
  intro speller c past h
  simpa [Parse.resembles, Step.Meets] using h

theorem triple_closest {text : α → String} {candidates : List α} :
    Triple E P (Parse.closest text candidates) fun _ => P := by
  intro speller c past h
  simpa [Parse.closest, Step.Meets] using h

/-- What holds after a turn: one thing if the loop goes on, another if it is done. -/
def afterTurn (I : σ → Assertion) (R : β → Assertion) : Parse.Turn σ β → Assertion
  | .again s => I s
  | .done b => R b

/-- A turn that goes on has to leave fewer tokens than the `n` in front of it. -/
theorem triple_loop {step : σ → Parse (Parse.Turn σ β)} {I : σ → Assertion}
    {R : β → Assertion}
    (hstep : ∀ s n, Triple E (fun c past => I s c past ∧ c.size = n) (step s)
      (afterTurn (fun s' c past => I s' c past ∧ c.size < n) R)) (s : σ) :
    Triple E (I s) (Parse.loop step s) R := by
  intro speller c past h
  induction hn : c.size using Nat.strongRecOn generalizing s c past with
  | _ n ih =>
    have hs := hstep s n speller c past ⟨h, hn⟩
    rw [Parse.loop_eq]
    generalize step s speller c = t at hs ⊢
    obtain ⟨outcome, rest, events⟩ := t
    cases outcome with
    | error halt => exact hs
    | ok turn =>
      cases turn with
      | done b => exact hs
      | again s' =>
        obtain ⟨hI, hlt⟩ := hs
        simp only [hn, hlt, if_true]
        exact (ih rest.size hlt s' rest _ hI rfl).behind

/-- If nothing is asked of an endless loop, its turns need not read tokens. -/
theorem triple_loop_of_endless {step : σ → Parse (Parse.Turn σ β)} {I : σ → Assertion}
    {R : β → Assertion} (hE : ∀ s c past, I s c past → E .endless c past)
    (hstep : ∀ s, Triple E (I s) (step s) (afterTurn I R)) (s : σ) :
    Triple E (I s) (Parse.loop step s) R := by
  intro speller c past h
  induction hn : c.size using Nat.strongRecOn generalizing s c past with
  | _ n ih =>
    have hs := hstep s speller c past h
    rw [Parse.loop_eq]
    generalize step s speller c = t at hs ⊢
    obtain ⟨outcome, rest, events⟩ := t
    cases outcome with
    | error halt => exact hs
    | ok turn =>
      cases turn with
      | done b => exact hs
      | again s' =>
        by_cases hlt : rest.size < c.size
        · simp only [hlt, if_true]
          exact (ih rest.size (hn ▸ hlt) s' rest _ hs rfl).behind
        · simp only [hlt, if_false]
          exact hE s' rest _ hs

/-! ## Nothing asked -/

/-- Nothing is asked. -/
def Anywhere : Assertion := fun _ _ => True

def Anyhow : HaltAssertion := fun _ => Anywhere

theorem triple_anyhow {P : Assertion} {p : Parse α} : Triple Anyhow P p fun _ => Anywhere := by
  intro speller c past _
  generalize p speller c = s
  obtain ⟨outcome, rest, events⟩ := s
  cases outcome with
  | error halt => trivial
  | ok a => trivial

theorem exists_of_outcome {p : Parse α} {Q : α → Assertion} {speller : Speller} {c : Cursor}
    {a : α} (h : Triple Anyhow Anywhere p Q) (ha : (p speller c).outcome = .ok a) :
    ∃ rest past, Q a rest past := by
  have hs := h speller c [] trivial
  generalize p speller c = s at hs ha
  obtain ⟨outcome, rest, events⟩ := s
  cases ha
  exact ⟨rest, _, hs⟩

end LuaChecker.Grammar

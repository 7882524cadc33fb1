import LuaChecker.Proofs.Parsing.Built
import Mathlib.Data.List.Forall2

/-!
# Parses of tokens that stand elsewhere

Tokens with the same kinds and texts but at other places are parsed in step: at each point
the two parses have come to the same value and have the same words left, and they have
recorded the same events, each about the line that the first one's line has become.

* `Token.Relaid`, `Event.relaid`: tokens and events, moved to other lines;
* `Built.lockstep`: all parses go in step.
-/

namespace LuaChecker

/-- The second token is the first one in another place; its line is given by `g`. -/
structure Token.Relaid (g : Nat → Nat) (t u : Token) : Prop where
  line : u.line = g t.line
  kind : u.kind = t.kind
  text : u.text = t.text

/-- The tokens left are the same but for their places. -/
def Cursor.Relaid (g : Nat → Nat) (c d : Cursor) : Prop :=
  List.Forall₂ (Token.Relaid g) c.tokens d.tokens

namespace Cursor.Relaid

variable {g : Nat → Nat} {c d : Cursor}

theorem words (h : Relaid g c d) : c.words = d.words := by
  unfold Relaid at h
  unfold Cursor.words
  generalize c.tokens = ts at h ⊢
  generalize d.tokens = us at h ⊢
  induction h with
  | nil => rfl
  | cons htoken _ ih =>
    rw [List.map_cons, List.map_cons, ih, Token.word, Token.word, htoken.kind, htoken.text]

theorem line? (h : Relaid g c d) : d.line? = c.line?.map g := by
  unfold Relaid at h
  unfold Cursor.line? current?
  generalize c.tokens = ts at h ⊢
  generalize d.tokens = us at h ⊢
  cases h with
  | nil => rfl
  | cons htoken _ => exact congrArg some htoken.line

theorem size (h : Relaid g c d) : d.size = c.size := by
  rw [c.size_eq, d.size_eq]
  exact h.length_eq.symm

theorem advance (h : Relaid g c d) : Relaid g c.advance d.advance := by
  unfold Relaid at h ⊢
  rw [tokens_advance, tokens_advance]
  generalize c.tokens = ts at h ⊢
  generalize d.tokens = us at h ⊢
  cases h with
  | nil => exact .nil
  | cons _ hrest => exact hrest

theorem respell (h : Relaid g c d) (text : String) (kind : Kind) :
    Relaid g (c.respell text kind) (d.respell text kind) := by
  obtain ⟨ts, n, hn⟩ := c
  obtain ⟨us, m, hm⟩ := d
  cases h with
  | nil => exact .nil
  | cons htoken hrest => exact .cons ⟨htoken.line, rfl, rfl⟩ hrest

end Cursor.Relaid

namespace Grammar

open Parse

/-- An event about another line. -/
def Event.relaid (g : Nat → Nat) : Event → Event
  | .finding line cause => .finding (line.map g) cause
  | .header line name => .header (line.map g) name
  | .headerLacks line found wanted => .headerLacks (line.map g) found wanted
  | .parameters names variadic => .parameters names variadic

variable {α β σ : Type} {g : Nat → Nat}

/-- The second step leads to the same as the first one, in other places. -/
inductive Step.Relaid (g : Nat → Nat) : Step α → Step α → Prop
  | intro (outcome : Except Halt α) {rest rest' : Cursor} (hrest : rest.Relaid g rest')
      (events : List Event) :
      Relaid g ⟨outcome, rest, events⟩ ⟨outcome, rest', events.map (Event.relaid g)⟩

theorem Step.Relaid.behind {s t : Step α} (h : s.Relaid g t) (events : List Event) :
    (s.behind events).Relaid g (t.behind (events.map (Event.relaid g))) := by
  cases h with
  | intro outcome hrest later =>
    rw [Step.behind, Step.behind, ← List.map_append]
    exact .intro outcome hrest (events ++ later)

/-- From the same words in other places, the parse leads to the same in other places. -/
def Lockstep (g : Nat → Nat) (p : Parse α) : Prop :=
  ∀ speller c d, c.Relaid g d → (p speller c).Relaid g (p speller d)

/-! ## The small parses -/

theorem lockstep_pure (a : α) : Lockstep g (pure a : Parse α) :=
  fun _ _ _ h => .intro (.ok a) h []

theorem lockstep_halt (halt : Halt) : Lockstep g (Parse.halt halt : Parse α) :=
  fun _ _ _ h => .intro (.error halt) h []

theorem lockstep_look {f : Cursor → α} (hf : ByWords f) : Lockstep g (Parse.look f) := by
  intro speller c d h
  rw [Parse.look, Parse.look, hf h.words]
  exact .intro (.ok (f d)) h []

theorem lockstep_move {f : Cursor → α × Cursor} (hf : Attempt f) :
    Lockstep g (Parse.move f) := by
  intro speller c d h
  obtain ⟨wanted, hwanted, hreads⟩ := hf.reads
  have hvalue : (f c).1 = (f d).1 := hf.value h.words
  rw [Parse.move, Parse.move, hvalue, hreads c, hreads d, hwanted h.words]
  refine .intro (.ok (f d).1) ?_ []
  cases wanted d with
  | true => exact h.advance
  | false => exact h

theorem lockstep_respell (text : String) (kind : Kind) :
    Lockstep g (Parse.respell text kind) :=
  fun _ _ _ h => .intro (.ok ()) (h.respell text kind) []

theorem lockstep_record {event : Cursor → Event}
    (hevent : ∀ c d, c.Relaid g d → event d = (event c).relaid g) :
    Lockstep g (record event) := by
  intro speller c d h
  rw [record, record, hevent c d h]
  exact .intro (.ok ()) h [event c]

/-- A finding about the current token whose cause depends on words only. -/
theorem lockstep_finding {cause : Cursor → Cause} (hcause : ByWords cause) :
    Lockstep g (record fun c => .finding c.line? (cause c)) := by
  refine lockstep_record fun c d h => ?_
  rw [h.line?, hcause h.words]
  rfl

theorem lockstep_header (name : String) :
    Lockstep g (record fun c => .header c.line? name) := by
  refine lockstep_record fun c d h => ?_
  rw [h.line?]
  rfl

theorem lockstep_closest (text : α → String) (candidates : List α) :
    Lockstep g (closest text candidates) := by
  intro speller c d h
  rw [closest, closest, byWords_text? h.words]
  exact .intro _ h []

/-! ## Putting parses together -/

theorem Lockstep.bind {p : Parse α} {f : α → Parse β} (hp : Lockstep g p)
    (hf : ∀ a, Lockstep g (f a)) : Lockstep g (p >>= f) := by
  intro speller c d h
  have hstep := hp speller c d h
  rw [bind_eq, bind_eq]
  generalize p speller c = s at hstep ⊢
  generalize p speller d = t at hstep ⊢
  cases hstep with
  | intro outcome hrest events =>
    cases outcome with
    | error halt => exact .intro (.error halt) hrest events
    | ok a => exact (hf a speller _ _ hrest).behind events

theorem Lockstep.loop {step : σ → Parse (Turn σ β)} (hstep : ∀ s, Lockstep g (step s)) (s : σ) :
    Lockstep g (Parse.loop step s) := by
  intro speller c d h
  induction hn : c.size using Nat.strongRecOn generalizing s c d with
  | _ n ih =>
    have hturn := hstep s speller c d h
    rw [loop_eq, loop_eq step s speller d]
    generalize step s speller c = t at hturn ⊢
    generalize step s speller d = t' at hturn ⊢
    cases hturn with
    | @intro outcome rest rest' hrest events =>
      cases outcome with
      | error halt => exact .intro (.error halt) hrest events
      | ok turn =>
        cases turn with
        | done b => exact .intro (.ok b) hrest events
        | again s' =>
          simp only [hrest.size, h.size]
          by_cases hlt : rest.size < c.size
          · simp only [hlt, if_true]
            exact (ih rest.size (hn ▸ hlt) s' rest rest' hrest rfl).behind events
          · simp only [hlt, if_false]
            exact .intro (.error .endless) hrest events

/-! ## The parses that ask the speller -/

/-- What is noted about a token that is missed is looked up before anything is read. -/
theorem lackNoting_eq (wanted : String) (note : Option Nat → String → Event)
    (speller : Speller) (c : Cursor) :
    lackNoting wanted note speller c =
      ⟨.ok (), if c.text?.any (speller.resembles · wanted) then c.advance else c,
        [note c.line? c.describe]⟩ := by
  unfold lackNoting
  cases htext : c.text? with
  | none => simp [bind_eq, look, resembles, record, htext, Step.behind]
  | some text =>
    cases halike : speller.resembles text wanted with
    | true => simp [bind_eq, look, resembles, record, htext, halike, Step.behind, advance, move]
    | false => simp [bind_eq, look, resembles, record, htext, halike, Step.behind]

theorem lockstep_lackNoting {wanted : String} {note : Option Nat → String → Event}
    (hnote : ∀ line found, note (line.map g) found = (note line found).relaid g) :
    Lockstep g (lackNoting wanted note) := by
  intro speller c d h
  rw [lackNoting_eq, lackNoting_eq, h.line?, ← byWords_describe h.words, hnote,
    ← byWords_text? h.words]
  refine .intro (.ok ()) ?_ [note c.line? c.describe]
  cases c.text?.any (speller.resembles · wanted) with
  | true => exact h.advance
  | false => exact h

theorem lockstep_misspeltHead (closers : List Closer) : Lockstep g (misspeltHead closers) := by
  have htypo (meant : String) : Lockstep g (reportTypo meant) :=
    lockstep_finding (byWords_describe.comp fun found => Cause.typo found meant)
  have hadvance : Lockstep g advance := lockstep_move attempt_advance
  refine .bind (lockstep_closest _ _) fun found => ?_
  cases found with
  | some word => exact .bind (htypo _) fun _ => .bind hadvance fun _ => lockstep_pure _
  | none =>
    refine .bind (lockstep_closest _ _) fun found => ?_
    cases found with
    | some word =>
      exact .bind (htypo _) fun _ => .bind (lockstep_respell _ _) fun _ => lockstep_pure _
    | none =>
      refine .bind hadvance fun _ => .bind ?_ fun _ => lockstep_pure _
      exact lockstep_finding (byWords_describe.comp fun found => Cause.unexpected found .suffix)

theorem lockstep_afterLast (closers : List Closer) : Lockstep g (afterLast closers) := by
  refine .bind (lockstep_finding fun _ _ _ => rfl) fun _ => ?_
  refine .bind (lockstep_closest _ _) fun found => ?_
  cases found with
  | some word => exact .bind (lockstep_move attempt_advance) fun _ => lockstep_pure _
  | none => exact lockstep_pure _

theorem lockstep_endOfInput (closers : List Closer) : Lockstep g (endOfInput closers) := by
  cases closers with
  | nil => exact lockstep_pure _
  | cons word closers =>
    exact .bind (lockstep_record fun _ _ _ => rfl) fun _ => lockstep_halt _

/-- All parses go in step on tokens that differ in their places only. -/
theorem Built.lockstep {p : Parse α} (h : Built p) : Lockstep g p := by
  induction h with
  | pure a => exact lockstep_pure a
  | bind _ _ ihp ihf => exact ihp.bind ihf
  | loop _ s ih => exact .loop ih s
  | look hf => exact lockstep_look hf
  | move hf => exact lockstep_move hf
  | unexpected need =>
    exact lockstep_finding (byWords_describe.comp fun found => Cause.unexpected found need)
  | anonymous => exact lockstep_header ""
  | named _ _ _ ihreader ihbody =>
    exact ihreader.bind fun name => (lockstep_header name).bind fun _ => ihbody
  | parameters => exact lockstep_record fun _ _ _ => rfl
  | lack | lackInHeader => exact lockstep_lackNoting fun _ _ => rfl
  | misspelt closers => exact lockstep_misspeltHead closers
  | afterLast closers => exact lockstep_afterLast closers
  | unlessAtEnd closers _ ih =>
    refine (lockstep_look byWords_atEnd).bind fun atEnd => ?_
    cases atEnd with
    | true => exact lockstep_endOfInput closers
    | false => exact ih
  | tooDeep => exact .bind (lockstep_finding fun _ _ _ => rfl) fun _ => lockstep_halt _

end Grammar

end LuaChecker

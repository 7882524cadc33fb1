import LuaChecker.Check
import LuaChecker.Proofs.Parsing.Triple

/-!
# How many diagnostics a parse can give

Every token read pays for six diagnostics. A parse starts with the payment for all tokens
in front of it, hands on what is left, and may be granted a few more credits by the parse
around it, which has read a token for them. The dearest token is a misspelt `function`: one
diagnostic for the typo, one for the name that is not there, one for the name that is
declared again, and three for its parentheses and parameters.

* `Costs`: the parse never goes back, and needs at most so many credits beyond what the
  tokens that it reads pay for;
* `costs_look`, `costs_record`, `costs_advance`: what the smallest parses cost;
* `costs_demand`, `costs_many`: what a missing token and a repetition cost.

Each turn of a loop that goes on is seen to read a token on the way, so no repetition is
without end.
-/

namespace LuaChecker.Grammar

open Parse

/-! ## Events and credits -/

def Event.cost : Event → Nat
  | .finding _ _ => 1
  | .header _ _ => 1
  | .headerLacks _ _ _ => 1
  | .parameters _ _ => 0

/-- The most diagnostics that some events can lead to. -/
def cost : List Event → Nat
  | [] => 0
  | e :: events => e.cost + cost events

@[simp] theorem cost_nil : cost [] = 0 := rfl

@[simp] theorem cost_append_singleton (past : List Event) (e : Event) :
    cost (past ++ [e]) = cost past + e.cost := by
  induction past with
  | nil => simp [cost]
  | cons first past ih =>
    simp only [List.cons_append, cost, ih]
    omega

theorem length_findings_record (l : Ledger) (e : Event) :
    (l.record e).findings.length ≤ l.findings.length + e.cost := by
  cases e with
  | finding line cause => simp [Event.cost]
  | header line name =>
    simp only [Ledger.record, Ledger.declare, Ledger.report, Event.cost]
    split <;> split <;> simp
  | headerLacks line found wanted => simp [Ledger.record, Ledger.report, Event.cost]
  | parameters names variadic => simp [Ledger.record, Event.cost]

theorem length_findings_foldl (l : Ledger) (events : List Event) :
    (events.foldl Ledger.record l).findings.length ≤ l.findings.length + cost events := by
  induction events generalizing l with
  | nil => simp
  | cons e events ih =>
    have hstep := length_findings_record l e
    have hrest := ih (l.record e)
    simp only [List.foldl_cons, cost] at hrest ⊢
    omega

/-- The halt is recorded, as the last event. A signal and an endless repetition are not
recorded, so nothing halts for them. -/
def Halt.RecordedLast (events : List Event) : Halt → Prop
  | .endOfInput => events.getLast? = some (.finding none .notClosed)
  | .tooDeep => ∃ line, events.getLast? = some (.finding line .tooDeep)
  | .ellipsis _ | .misspeltCloser _ | .endless => False

/-- What holds where a parse halts that may spend six credits for each of `tokens` tokens:
the last diagnostic need not be paid for. -/
def Spent (tokens : Nat) : HaltAssertion := fun halt _ past =>
  halt.RecordedLast past ∧ cost past ≤ 6 * tokens + 1

/-- Fewer than `bound` tokens are left, and `credit` credits beyond those that they pay. -/
def Purse (tokens bound credit : Nat) : Assertion := fun c past =>
  c.size < bound ∧ cost past + 6 * c.size + credit ≤ 6 * tokens

variable {α β σ : Type} {tokens : Nat}

theorem Purse.mono {bound bound' credit credit' : Nat} {c : Cursor} {past : List Event}
    (h : Purse tokens bound' credit' c past) (hb : bound' ≤ bound) (hk : credit ≤ credit') :
    Purse tokens bound credit c past := by
  obtain ⟨hsize, hcost⟩ := h
  exact ⟨by omega, by omega⟩

theorem Purse.advance {bound credit : Nat} {c : Cursor} {past : List Event}
    (h : Purse tokens (bound + 1) credit c past) (hc : 0 < c.size) :
    Purse tokens bound (credit + 6) c.advance past := by
  obtain ⟨hsize, hcost⟩ := h
  simp only [Purse, Cursor.size_advance]
  omega

theorem Purse.advance_le {bound credit : Nat} {c : Cursor} {past : List Event}
    (h : Purse tokens bound credit c past) : Purse tokens bound credit c.advance past := by
  obtain ⟨hsize, hcost⟩ := h
  simp only [Purse, Cursor.size_advance]
  omega

theorem Purse.record {bound credit : Nat} {c : Cursor} {past : List Event} {e : Event}
    (h : Purse tokens bound (credit + 1) c past) :
    Purse tokens bound credit c (past ++ [e]) := by
  have he : e.cost ≤ 1 := by cases e <;> simp [Event.cost]
  obtain ⟨hsize, hcost⟩ := h
  simp only [Purse, cost_append_singleton]
  omega

/-- The parse never goes back, and needs at most `credit` credits beyond what the tokens
that it reads pay for. -/
def Costs (tokens : Nat) (p : Parse α) (credit : Nat) : Prop :=
  ∀ bound spare, Triple (Spent tokens) (Purse tokens bound (spare + credit)) p
    fun _ => Purse tokens bound spare

theorem Costs.triple {p : Parse α} {credit bound bound' held need : Nat}
    (h : Costs tokens p credit) (hb : bound ≤ bound') (hk : need + credit ≤ held) :
    Triple (Spent tokens) (Purse tokens bound held) p fun _ => Purse tokens bound' need :=
  triple_mono (h bound need) (fun _ _ hp => hp.mono (Nat.le_refl _) hk)
    fun _ _ _ hq => hq.mono hb (Nat.le_refl _)

/-- A cursor at which a purse is held has one more token allowed than it has left. -/
theorem costs_of_succ {p : Parse α} {credit : Nat}
    (h : ∀ bound spare, Triple (Spent tokens) (Purse tokens (bound + 1) (spare + credit)) p
      fun _ => Purse tokens (bound + 1) spare) : Costs tokens p credit := by
  intro bound spare
  cases bound with
  | zero =>
    intro speller c past hp
    exact absurd hp.1 (Nat.not_lt_zero _)
  | succ bound => exact h bound spare

namespace Costs

theorem pure {a : α} : Costs tokens (Pure.pure a : Parse α) 0 := fun bound spare =>
  triple_pure (Q := fun _ => Purse tokens bound spare)

theorem bind {p : Parse α} {f : α → Parse β} {j k : Nat} (hp : Costs tokens p j)
    (hf : ∀ a, Costs tokens (f a) k) : Costs tokens (p >>= f) (j + k) := by
  intro bound spare
  exact triple_bind (hp.triple (Nat.le_refl _) (by omega)) fun a => hf a bound spare

theorem mono {p : Parse α} {j k : Nat} (hp : Costs tokens p j) (hjk : j ≤ k) :
    Costs tokens p k := fun _ _ => hp.triple (Nat.le_refl _) (by omega)

theorem discard {p : Parse α} {k : Nat} (hp : Costs tokens p k) :
    Costs tokens (Functor.discard p) k := fun bound spare => triple_discard (hp bound spare)

theorem ite {b : Bool} {p q : Parse α} {k : Nat} (hp : Costs tokens p k)
    (hq : Costs tokens q k) : Costs tokens (if b then p else q) k :=
  fun bound spare => triple_ite (fun _ => hp bound spare) fun _ => hq bound spare

end Costs

/-! ## The smallest parses -/

theorem costs_look {f : Cursor → α} : Costs tokens (look f) 0 :=
  fun _ _ => triple_look_keep

theorem costs_record {event : Cursor → Event} : Costs tokens (record event) 1 :=
  fun _ _ => triple_pre triple_record fun _ _ hp => hp.record

theorem costs_advance : Costs tokens advance 0 :=
  fun _ _ => triple_pre triple_move fun _ _ hp => hp.advance_le

theorem pos_of_sees {c : Cursor} {text : String} (h : c.sees text = true) : 0 < c.size := by
  obtain ⟨ts, n, hn⟩ := c
  cases ts with
  | nil => simp [Cursor.sees, Cursor.text?, Cursor.current?] at h
  | cons t ts => simp [hn]

theorem pos_of_seesAny {c : Cursor} {texts : List String} (h : c.seesAny texts = true) :
    0 < c.size := by
  obtain ⟨ts, n, hn⟩ := c
  cases ts with
  | nil => simp [Cursor.seesAny, Cursor.text?, Cursor.current?] at h
  | cons t ts => simp [hn]

theorem pos_of_seesKind {c : Cursor} {kind : Kind} (h : c.seesKind kind = true) :
    0 < c.size := by
  obtain ⟨ts, n, hn⟩ := c
  cases ts with
  | nil => simp [Cursor.seesKind, Cursor.kind?, Cursor.current?] at h
  | cons t ts => simp [hn]

section Attempts

variable {p q : Parse α} {Q : α → Assertion} {bound credit : Nat}

/-- A choice after an attempt to read the current token. If it is read, it pays; if not, it
is known to be another one. -/
theorem triple_attempt {wanted : Cursor → Bool} {F : Cursor → Prop}
    (hw : ∀ c, wanted c = true → 0 < c.size)
    (hp : Triple (Spent tokens) (Purse tokens bound (credit + 6)) p Q)
    (hq : Triple (Spent tokens)
      (fun c past => Purse tokens (bound + 1) credit c past ∧ F c ∧ wanted c = false) q Q) :
    Triple (Spent tokens) (fun c past => Purse tokens (bound + 1) credit c past ∧ F c)
      (do if ← move (fun c => c.advanceIf (wanted c)) then p else q) Q := by
  refine triple_bind (Q := fun found => if found = true then Purse tokens bound (credit + 6)
    else fun c past => Purse tokens (bound + 1) credit c past ∧ F c ∧ wanted c = false) ?_ ?_
  · refine triple_pre triple_move fun c past h => ?_
    cases hc : wanted c with
    | true => simpa [Cursor.advanceIf] using h.1.advance (hw c hc)
    | false => simpa [Cursor.advanceIf, hc] using h
  · intro found
    cases found with
    | true => exact hp
    | false => exact hq

variable (hp : Triple (Spent tokens) (Purse tokens bound (credit + 6)) p Q)
  (hq : Triple (Spent tokens) (Purse tokens (bound + 1) credit) q Q)
include hp hq

theorem triple_attempt_plain {wanted : Cursor → Bool}
    (hw : ∀ c, wanted c = true → 0 < c.size) :
    Triple (Spent tokens) (Purse tokens (bound + 1) credit)
      (do if ← move (fun c => c.advanceIf (wanted c)) then p else q) Q :=
  triple_pre (triple_attempt (F := fun _ => True) hw hp (triple_pre hq fun _ _ h => h.1))
    fun _ _ h => ⟨h, trivial⟩

theorem triple_accept (text : String) :
    Triple (Spent tokens) (Purse tokens (bound + 1) credit)
      (do if ← accept text then p else q) Q :=
  triple_attempt_plain hp hq fun _ => pos_of_sees

theorem triple_acceptAny (texts : List String) :
    Triple (Spent tokens) (Purse tokens (bound + 1) credit)
      (do if ← acceptAny texts then p else q) Q :=
  triple_attempt_plain hp hq fun _ => pos_of_seesAny

theorem triple_acceptKind (kind : Kind) :
    Triple (Spent tokens) (Purse tokens (bound + 1) credit)
      (do if ← acceptKind kind then p else q) Q :=
  triple_attempt_plain hp hq fun _ => pos_of_seesKind

end Attempts

theorem costs_lackNoting {wanted : String} {note : Option Nat → String → Event} :
    Costs tokens (lackNoting wanted note) 1 := by
  have hlook : Costs tokens (look id) 0 := costs_look
  have halike : Costs tokens (resembles wanted) 0 := fun _ _ => triple_resembles
  refine hlook.bind (k := 1) fun here => halike.bind (k := 1) fun alike => ?_
  cases alike with
  | true => exact costs_advance.bind fun _ => costs_record
  | false => exact costs_record

theorem costs_demandNoting {wanted : String} {note : Option Nat → String → Event} :
    Costs tokens (demandNoting wanted note) 1 := by
  refine costs_of_succ fun bound spare => ?_
  refine triple_accept ?_ ?_ wanted
  · exact Costs.pure.triple (by omega) (by omega)
  · exact costs_lackNoting _ _

theorem costs_demand {wanted : String} {place : Place} :
    Costs tokens (demand wanted place) 1 := costs_demandNoting

theorem costs_demandInHeader {wanted : String} : Costs tokens (demandInHeader wanted) 1 :=
  costs_demandNoting

/-! ## Repetition -/

/-- A turn that goes on reads a token. In the state `s` there are `due s` credits, and the
turn may be the last one without reading a token unless `lag s` is 1. -/
theorem triple_loop_of_turns {step : σ → Parse (Turn σ β)} (due lag : σ → Nat)
    {left : β → Nat} {bound : Nat} {s : σ} (hlag : ∀ s, lag s ≤ 1)
    (hstep : ∀ s bound, Triple (Spent tokens) (Purse tokens (bound + 1) (due s)) (step s)
      (afterTurn (fun s' => Purse tokens bound (due s'))
        fun b => Purse tokens (bound + 1 - lag s) (left b))) :
    Triple (Spent tokens) (Purse tokens (bound + lag s) (due s)) (loop step s)
      fun b => Purse tokens bound (left b) := by
  refine triple_loop (I := fun s => Purse tokens (bound + lag s) (due s)) (fun s n => ?_) s
  intro speller c past h
  obtain ⟨hp, hn⟩ := h
  have hlt : n < bound + lag s := hn ▸ hp.1
  have hs := hstep s n speller c past ⟨by omega, hp.2⟩
  generalize step s speller c = t at hs ⊢
  obtain ⟨outcome, rest, events⟩ := t
  rcases outcome with halt | ⟨s' | b⟩
  · exact hs
  · have := hlag s
    exact ⟨hs.mono (by omega) (Nat.le_refl _), hs.1⟩
  · exact Purse.mono hs (by omega) (Nat.le_refl _)

theorem costs_loop {step : σ → Parse (Turn σ β)} {s : σ}
    (hstep : ∀ s bound spare, Triple (Spent tokens) (Purse tokens (bound + 1) spare) (step s)
      (afterTurn (fun _ => Purse tokens bound spare)
        fun _ => Purse tokens (bound + 1) spare)) :
    Costs tokens (loop step s) 0 := fun _ spare =>
  triple_loop_of_turns (fun _ => spare) (fun _ => 0) (fun _ => Nat.zero_le _)
    fun s bound => hstep s bound spare

theorem costs_many {step : Parse Bool} {credit : Nat}
    (hstep : ∀ bound spare, Triple (Spent tokens) (Purse tokens (bound + 1) (spare + credit))
      step fun more => if more then Purse tokens bound (spare + credit)
        else Purse tokens (bound + 1) spare) :
    Costs tokens (many step) credit := by
  intro bound spare
  refine triple_loop_of_turns (fun _ => spare + credit) (fun _ => 0) (fun _ => Nat.zero_le _)
    fun _ bound => ?_
  refine triple_bind (hstep bound spare) fun more => ?_
  refine triple_pre triple_pure fun c past h => ?_
  cases more with
  | true => exact h
  | false => exact h

theorem costs_afterComma {p : Parse Unit} {credit : Nat} (hp : Costs tokens p credit)
    (hk : credit ≤ 6) : Costs tokens (many (afterComma p)) 0 := by
  refine costs_many fun bound spare => ?_
  refine triple_accept ?_ ?_ ","
  · have hpaid : Triple (Spent tokens) (Purse tokens bound (spare + 0 + 6)) p
        fun _ => Purse tokens bound spare := hp.triple (Nat.le_refl _) (by omega)
    exact triple_bind hpaid fun _ => triple_pre triple_pure fun _ _ h => h
  · exact triple_pre triple_pure fun _ _ h => h

end LuaChecker.Grammar

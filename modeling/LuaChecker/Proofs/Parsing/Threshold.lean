import LuaChecker.Proofs.Parsing.Built
import LuaChecker.Proofs.Syntax.Acceptance

/-!
# What the threshold has influence on

The speller is asked in three places, and in each of them a fault is recorded whatever it
answers. So two parses that ask different spellers go the same way until both have recorded
a fault, and a program without faults is read alike with every threshold.

* `Built.agrees`: parses with two spellers are the same, or both record a fault;
* `clean_with_every_threshold`: whether a program is clean, and what a clean program
  declares, does not depend on the threshold.
-/

namespace LuaChecker.Grammar

open Parse

variable {α β σ : Type}

/-! ## Faults on the way -/

/-- A fault is recorded on the way. -/
def Step.HasFault (s : Step α) : Prop := ∃ e ∈ s.events, e.isFault = true

theorem Step.HasFault.behind {s : Step α} (h : s.HasFault) (events : List Event) :
    (s.behind events).HasFault := by
  obtain ⟨e, he, hfault⟩ := h
  exact ⟨e, List.mem_append_right events he, hfault⟩

/-- A fault of the first of two parses is one of both together. -/
theorem hasFault_bind {p : Parse α} {speller : Speller} {c : Cursor}
    (h : (p speller c).HasFault) (f : α → Parse β) : ((p >>= f) speller c).HasFault := by
  obtain ⟨e, he, hfault⟩ := h
  rw [bind_eq]
  generalize p speller c = s at he ⊢
  obtain ⟨outcome, rest, events⟩ := s
  cases outcome with
  | error halt => exact ⟨e, he, hfault⟩
  | ok a => exact ⟨e, List.mem_append_left _ he, hfault⟩

/-- The parse records a fault, from wherever it starts and whatever the speller says. -/
def AlwaysFaulty (p : Parse α) : Prop := ∀ speller c, (p speller c).HasFault

theorem faulty_record {event : Cursor → Event} (h : ∀ c, (event c).isFault = true) :
    AlwaysFaulty (record event) :=
  fun _ c => ⟨event c, List.mem_singleton_self _, h c⟩

theorem AlwaysFaulty.andThen {p : Parse α} (hp : AlwaysFaulty p) (f : α → Parse β) :
    AlwaysFaulty (p >>= f) :=
  fun speller c => hasFault_bind (hp speller c) f

/-- A fault is recorded after a parse that cannot halt. -/
theorem AlwaysFaulty.after {p : Parse α} {f : α → Parse β} (hf : ∀ a, AlwaysFaulty (f a))
    (hp : ∀ speller c, ∃ a rest events, p speller c = ⟨.ok a, rest, events⟩) :
    AlwaysFaulty (p >>= f) := by
  intro speller c
  obtain ⟨a, rest, events, heq⟩ := hp speller c
  rw [bind_eq, heq]
  exact (hf a speller rest).behind events

theorem faulty_lackNoting {wanted : String} {note : Option Nat → String → Event}
    (hnote : ∀ line found, (note line found).isFault = true) :
    AlwaysFaulty (lackNoting wanted note) := by
  refine .after (fun here => ?_) fun _ _ => ⟨_, _, _, rfl⟩
  refine .after (fun alike => ?_) fun _ _ => ⟨_, _, _, rfl⟩
  have hrecord : AlwaysFaulty (record fun _ => note here.line? here.describe) :=
    faulty_record fun _ => hnote _ _
  cases alike with
  | true => exact .after (fun _ => hrecord) fun _ _ => ⟨_, _, _, rfl⟩
  | false => exact hrecord

theorem faulty_misspeltHead (closers : List Closer) : AlwaysFaulty (misspeltHead closers) := by
  refine .after (fun found => ?_) fun _ _ => ⟨_, _, _, rfl⟩
  cases found with
  | some word => exact (faulty_record fun _ => rfl).andThen _
  | none =>
    refine .after (fun found => ?_) fun _ _ => ⟨_, _, _, rfl⟩
    cases found with
    | some word => exact (faulty_record fun _ => rfl).andThen _
    | none =>
      have hunexpected : AlwaysFaulty (do unexpected .suffix; return .other : Parse Head) :=
        (faulty_record fun _ => rfl).andThen _
      exact .after (fun _ => hunexpected) fun _ _ => ⟨_, _, _, rfl⟩

theorem faulty_afterLast (closers : List Closer) : AlwaysFaulty (afterLast closers) :=
  (faulty_record fun _ => rfl).andThen _

/-! ## Two spellers -/

/-- With any two spellers the parse leads to the same, or to a fault with both. -/
def Agrees (p : Parse α) : Prop :=
  ∀ speller other c,
    p speller c = p other c ∨ (p speller c).HasFault ∧ (p other c).HasFault

theorem AlwaysFaulty.agrees {p : Parse α} (h : AlwaysFaulty p) : Agrees p :=
  fun speller other c => .inr ⟨h speller c, h other c⟩

theorem Agrees.bind {p : Parse α} {f : α → Parse β} (hp : Agrees p) (hf : ∀ a, Agrees (f a)) :
    Agrees (p >>= f) := by
  intro speller other c
  rcases hp speller other c with heq | ⟨hfault, hother⟩
  · rw [bind_eq, bind_eq, heq]
    generalize p other c = s
    obtain ⟨outcome, rest, events⟩ := s
    cases outcome with
    | error halt => exact .inl rfl
    | ok a =>
      rcases hf a speller other rest with heq | ⟨hfault, hother⟩
      · exact .inl (congrArg (Step.behind events) heq)
      · exact .inr ⟨hfault.behind events, hother.behind events⟩
  · exact .inr ⟨hasFault_bind hfault f, hasFault_bind hother f⟩

/-- A fault of the first turn is a fault of the loop. -/
theorem hasFault_loop {step : σ → Parse (Turn σ β)} {s : σ} {speller : Speller} {c : Cursor}
    (h : (step s speller c).HasFault) : (loop step s speller c).HasFault := by
  obtain ⟨e, he, hfault⟩ := h
  rw [loop_eq]
  generalize step s speller c = t at he ⊢
  obtain ⟨outcome, rest, events⟩ := t
  cases outcome with
  | error halt => exact ⟨e, he, hfault⟩
  | ok turn =>
    cases turn with
    | done b => exact ⟨e, he, hfault⟩
    | again s' =>
      by_cases hlt : rest.size < c.size
      · simp only [hlt, if_true]
        exact ⟨e, List.mem_append_left _ he, hfault⟩
      · simp only [hlt, if_false]
        exact ⟨e, he, hfault⟩

/-- As long as the turns are the same, the loops are; the first turns that differ are
faulty. -/
theorem Agrees.loop {step : σ → Parse (Turn σ β)} (hstep : ∀ s, Agrees (step s)) (s : σ) :
    Agrees (Parse.loop step s) := by
  intro speller other c
  induction hn : c.size using Nat.strongRecOn generalizing s c with
  | _ n ih =>
    rcases hstep s speller other c with heq | ⟨hfault, hother⟩
    · rw [loop_eq, loop_eq step s other, heq]
      generalize step s other c = t
      obtain ⟨outcome, rest, events⟩ := t
      cases outcome with
      | error halt => exact .inl rfl
      | ok turn =>
        cases turn with
        | done b => exact .inl rfl
        | again s' =>
          by_cases hlt : rest.size < c.size
          · simp only [hlt, if_true]
            rcases ih rest.size (hn ▸ hlt) s' rest rfl with heq | ⟨hfault, hother⟩
            · exact .inl (congrArg (Step.behind events) heq)
            · exact .inr ⟨hfault.behind events, hother.behind events⟩
          · simp only [hlt, if_false, true_or]
    · exact .inr ⟨hasFault_loop hfault, hasFault_loop hother⟩

/-- A parse that does not ask the speller. -/
theorem agrees_of_eq {p : Parse α} (h : ∀ speller other, p speller = p other) : Agrees p :=
  fun speller other c => .inl (congrFun (h speller other) c)

theorem Built.agrees {p : Parse α} (h : Built p) : Agrees p := by
  induction h with
  | pure | look | move | unexpected | anonymous | parameters | tooDeep =>
    exact agrees_of_eq fun _ _ => rfl
  | bind _ _ ihp ihf => exact ihp.bind ihf
  | loop _ s ih => exact .loop ih s
  | named _ _ _ ihreader ihbody =>
    exact ihreader.bind fun _ => (agrees_of_eq fun _ _ => rfl).bind fun _ => ihbody
  | lack | lackInHeader => exact (faulty_lackNoting fun _ _ => rfl).agrees
  | misspelt closers => exact (faulty_misspeltHead closers).agrees
  | afterLast closers => exact (faulty_afterLast closers).agrees
  | @unlessAtEnd closers _ _ ih =>
    refine (agrees_of_eq fun _ _ => rfl).bind fun atEnd => ?_
    cases atEnd with
    | true =>
      cases closers with
      | nil => exact agrees_of_eq fun _ _ => rfl
      | cons word closers => exact agrees_of_eq fun _ _ => rfl
    | false => exact ih

/-! ## Programs -/

/-- If the check has nothing to say with one threshold, its report is the same with every
other one. -/
theorem checkTokens_eq_of_clean {threshold : Float} {ts : List Token}
    (h : (checkTokens threshold ts).diagnostics = []) (other : Float) :
    checkTokens other ts = checkTokens threshold ts := by
  have hfaultless := (redefinitions_only_iff threshold ts).mp (by simp [h])
  rcases built_program.agrees (.ofThreshold threshold) (.ofThreshold other) (.ofList ts) with
    heq | ⟨⟨e, he, hfault⟩, -⟩
  · simp only [checkTokens, parse_eq, heq]
  · cases hfault.symm.trans (hfaultless e he)

/-- **Threshold and clean programs.** Whether the check has nothing to say about a list of
tokens does not depend on the threshold, and if it has nothing to say, neither does the
function table. -/
theorem clean_with_every_threshold (threshold other : Float) (ts : List Token) :
    ((checkTokens threshold ts).diagnostics = [] ↔ (checkTokens other ts).diagnostics = []) ∧
      ((checkTokens threshold ts).diagnostics = [] →
        (checkTokens threshold ts).functions = (checkTokens other ts).functions) := by
  refine ⟨⟨fun h => ?_, fun h => ?_⟩, fun h => ?_⟩
  · rw [checkTokens_eq_of_clean h other, h]
  · rw [checkTokens_eq_of_clean h threshold, h]
  · rw [checkTokens_eq_of_clean h other]

end LuaChecker.Grammar

import LuaChecker.Check
import LuaChecker.Proofs.Parsing.Built
import LuaChecker.Proofs.Parsing.Findings
import LuaChecker.Proofs.Similarity.Best
import LuaChecker.Proofs.Similarity.Subsequence

/-!
# Thresholds that no ratio exceeds

A ratio is at most one, and nothing exceeds what is not a number. With a threshold of one or
more, or with one that is not a number, no word is read as another one, so all of these
thresholds lead to the same parse, and no diagnostic of it is about a misspelling.

* `ofThreshold_eq_silent`: these thresholds make the same speller, which never says yes;
* `Built.records_silent`: parses that ask it record no misspelling;
* `isTypo_message`: misspellings told by their messages;
* `matched_common_subsequence`: what all this comes from.
-/

namespace LuaChecker

open Similarity

/-! ## Spellers that never say yes -/

/-- The speller for which no word is a misspelling. -/
def Speller.silent : Speller := ⟨fun _ _ => false, fun _ _ => none⟩

/-- No ratio exceeds the threshold: it is one or more, or it is not a number. -/
def IsOutOfReach (threshold : Float) : Prop :=
  1.0 ≤ threshold ∨ threshold.isNaN = true

theorem ofThreshold_eq_silent {threshold : Float} (h : IsOutOfReach threshold) :
    Speller.ofThreshold threshold = .silent := by
  have hresembles (found wanted : String) : isTypoOf found wanted threshold = false :=
    decide_eq_false (not_lt_ratio h)
  have hclosest (found : String) (candidates : List String) :
      bestMatch found candidates threshold = none := by
    unfold bestMatch
    cases hbest : mostAlike found candidates with
    | none => rfl
    | some best =>
      obtain ⟨c, hc⟩ := exists_ratio_of_mostAlike hbest
      exact if_neg (hc ▸ not_lt_ratio h)
  unfold Speller.ofThreshold Speller.silent
  rw [funext fun found => funext (hresembles found), funext fun found => funext (hclosest found)]

namespace Grammar

open Parse

variable {α β σ : Type} {speller : Speller} {K : Event → Prop}

/-! ## What a parse records -/

/-- All events that the parse records are of a certain sort. -/
def Records (speller : Speller) (K : Event → Prop) (p : Parse α) : Prop :=
  ∀ c, ∀ e ∈ (p speller c).events, K e

namespace Records

theorem nothing {p : Parse α} (h : ∀ c, (p speller c).events = []) : Records speller K p := by
  intro c e he
  rw [h c] at he
  cases he

theorem record {event : Cursor → Event} (h : ∀ c, K (event c)) :
    Records speller K (Parse.record event) := by
  intro c e he
  rw [List.mem_singleton.mp he]
  exact h c

theorem bind {p : Parse α} {f : α → Parse β} (hp : Records speller K p)
    (hf : ∀ a, Records speller K (f a)) : Records speller K (p >>= f) := by
  intro c
  have hfirst := hp c
  rw [bind_eq]
  generalize p speller c = s at hfirst ⊢
  obtain ⟨outcome, rest, events⟩ := s
  cases outcome with
  | error halt => exact hfirst
  | ok a => exact List.forall_mem_append.mpr ⟨hfirst, hf a rest⟩

/-- A parse that only finds something out, and always the same. -/
theorem bind_of_eq {p : Parse α} {f : α → Parse β} {a : α}
    (hp : ∀ c, p speller c = ⟨.ok a, c, []⟩) (hf : Records speller K (f a)) :
    Records speller K (p >>= f) := by
  intro c
  rw [bind_eq, hp c]
  exact hf c

theorem loop {step : σ → Parse (Turn σ β)} (hstep : ∀ s, Records speller K (step s)) (s : σ) :
    Records speller K (Parse.loop step s) := by
  intro c
  induction hn : c.size using Nat.strongRecOn generalizing s c with
  | _ n ih =>
    have hturn := hstep s c
    rw [loop_eq]
    generalize step s speller c = t at hturn ⊢
    obtain ⟨outcome, rest, events⟩ := t
    cases outcome with
    | error halt => exact hturn
    | ok turn =>
      cases turn with
      | done b => exact hturn
      | again s' =>
        by_cases hlt : rest.size < c.size
        · simp only [hlt, if_true]
          exact List.forall_mem_append.mpr ⟨hturn, ih rest.size (hn ▸ hlt) s' rest rfl⟩
        · simp only [hlt, if_false]
          exact hturn

theorem lackNoting {wanted : String} {note : Option Nat → String → Event}
    (h : ∀ line found, K (note line found)) :
    Records speller K (Parse.lackNoting wanted note) := by
  refine .bind (.nothing fun _ => rfl) fun here => .bind (.nothing fun _ => rfl) fun alike => ?_
  have hrecord : Records speller K (Parse.record fun _ => note here.line? here.describe) :=
    .record fun _ => h _ _
  cases alike with
  | true => exact .bind (.nothing fun _ => rfl) fun _ => hrecord
  | false => exact hrecord

end Records

/-! ## No misspellings -/

/-- A name is read as another word. -/
def Event.isTypo : Event → Bool
  | .finding _ (.typo _ _) => true
  | _ => false

/-- The sort of event that is no misspelling. -/
abbrev Event.NoTypo (e : Event) : Prop := e.isTypo = false

theorem closest_silent (text : α → String) (candidates : List α) (c : Cursor) :
    closest text candidates .silent c = ⟨.ok none, c, []⟩ := by
  unfold closest Speller.silent
  cases c.text? <;> rfl

theorem records_misspeltHead (closers : List Closer) :
    Records .silent Event.NoTypo (misspeltHead closers) := by
  refine .bind_of_eq (closest_silent _ _) (.bind_of_eq (closest_silent _ _) ?_)
  refine .bind (.nothing fun _ => rfl) fun _ => .bind (.record fun _ => rfl) fun _ => ?_
  exact .nothing fun _ => rfl

theorem records_afterLast (closers : List Closer) :
    Records .silent Event.NoTypo (afterLast closers) :=
  .bind (.record fun _ => rfl) fun _ =>
    .bind_of_eq (closest_silent _ _) (.nothing fun _ => rfl)

theorem Built.records_silent {p : Parse α} (h : Built p) : Records .silent Event.NoTypo p := by
  induction h with
  | pure | look | move => exact .nothing fun _ => rfl
  | unexpected | anonymous | parameters => exact .record fun _ => rfl
  | bind _ _ ihp ihf => exact ihp.bind ihf
  | loop _ s ih => exact .loop ih s
  | named _ _ _ ihreader ihbody =>
    exact ihreader.bind fun _ => .bind (.record fun _ => rfl) fun _ => ihbody
  | lack | lackInHeader => exact .lackNoting fun _ _ => rfl
  | misspelt closers => exact records_misspeltHead closers
  | afterLast closers => exact records_afterLast closers
  | @unlessAtEnd closers _ _ ih =>
    refine .bind (.nothing fun _ => rfl) fun atEnd => ?_
    cases atEnd with
    | true =>
      cases closers with
      | nil => exact .nothing fun _ => rfl
      | cons word closers => exact .bind (.record fun _ => rfl) fun _ => .nothing fun _ => rfl
    | false => exact ih
  | tooDeep => exact .bind (.record fun _ => rfl) fun _ => .nothing fun _ => rfl

end Grammar

/-! ## Messages -/

/-- The diagnostic says that a word is misspelt. -/
def Diagnostic.IsTypo (d : Diagnostic) : Prop := "Typo in".toList <+: d.message.toList

namespace Grammar

/-- The messages of other causes start differently. -/
theorem isTypo_message {line : Option Nat} {cause : Cause}
    (h : (⟨line, cause.message⟩ : Diagnostic).IsTypo) : (Event.finding line cause).isTypo = true := by
  have hhead : cause.message.toList.head? = some 'T' := by
    obtain ⟨rest, hrest⟩ := h
    rw [← hrest]
    rfl
  cases cause with
  | typo found meant => rfl
  | missing | unexpected | redefined => simp [Cause.message] at hhead
  | unreachable | notClosed | tooDeep => cases hhead

theorem diagnostics_noTypo {es : List Event} (h : ∀ e ∈ es, e.NoTypo) :
    ∀ d ∈ (Ledger.ofEvents es).diagnostics, ¬ d.IsTypo := by
  rintro d hd htypo
  obtain ⟨past, e, later, ⟨line, cause⟩, rfl, hadds, rfl⟩ := Ledger.mem_diagnostics_iff.mp hd
  have hcause := isTypo_message htypo
  have he : e.NoTypo := h e (List.mem_append_right _ List.mem_cons_self)
  rcases Ledger.adds_cases hadds with rfl | ⟨name, rfl, rfl⟩ | ⟨found, wanted, rfl, rfl⟩
  · exact Bool.noConfusion (hcause.symm.trans he)
  · cases hcause
  · cases hcause

end Grammar

/-- **Matching characters are a common subsequence.** For all texts some common subsequence is
as long as there are matching characters. So these are at most as many as the shorter text has,
there are none if and only if no character is shared, and all characters match if and only if
the texts are equal. So no word is taken for a misspelling if the threshold is one or more or
not a number: all of these thresholds lead to the same parse of any tokens, and no diagnostic of
it is about a misspelling. -/
theorem matched_common_subsequence :
    (∀ a b : String,
      let m := matching a b
      (∃ text : List Char, text.Sublist a.toList ∧ text.Sublist b.toList ∧ text.length = m) ∧
        m ≤ min a.toList.length b.toList.length ∧
        (m = 0 ↔ ∀ c ∈ a.toList, c ∉ b.toList) ∧
        (2 * m = a.toList.length + b.toList.length ↔ a = b)) ∧
      (∀ threshold other, IsOutOfReach threshold → IsOutOfReach other →
        ∀ ts, Grammar.program (.ofThreshold threshold) (.ofList ts) =
            Grammar.program (.ofThreshold other) (.ofList ts) ∧
          checkTokens threshold ts = checkTokens other ts) ∧
      ∀ threshold, IsOutOfReach threshold →
        ∀ ts, ∀ d ∈ (checkTokens threshold ts).diagnostics, ¬ d.IsTypo := by
  refine ⟨fun a b => ?_, fun threshold other h h' ts => ?_, fun threshold h ts => ?_⟩
  · have hmatches := matches_matching a b
    refine ⟨exists_sublist_of_matches hmatches, hmatches.le_min, hmatches.eq_zero_iff, ?_⟩
    rw [hmatches.two_mul_eq_iff, String.toList_inj]
  · unfold checkTokens
    rw [ofThreshold_eq_silent h, ofThreshold_eq_silent h']
    exact ⟨rfl, rfl⟩
  · rw [Grammar.diagnostics_checkTokens, ofThreshold_eq_silent h]
    exact Grammar.diagnostics_noTypo (Grammar.built_program.records_silent _)

/-- With the threshold 1 and with one that is not a number, nothing is said to be misspelt. -/
theorem matched_common_subsequence_one :
    IsOutOfReach 1.0 ∧ IsOutOfReach (0.0 / 0.0) ∧
      (∀ ts, checkTokens 1.0 ts = checkTokens (0.0 / 0.0) ts) ∧
      (∀ ts, ∀ d ∈ (checkTokens 1.0 ts).diagnostics, ¬ d.IsTypo) ∧
      2 * matching "while" "while" = 10 := by
  have hone : IsOutOfReach 1.0 := .inl (by decide +kernel)
  have hnan : IsOutOfReach (0.0 / 0.0) := .inr (by decide +kernel)
  obtain ⟨htexts, hsame, hnone⟩ := matched_common_subsequence
  obtain ⟨-, -, -, hequal⟩ := htexts "while" "while"
  exact ⟨hone, hnan, fun ts => (hsame _ _ hone hnan ts).2, hnone _ hone, hequal.mpr rfl⟩

end LuaChecker

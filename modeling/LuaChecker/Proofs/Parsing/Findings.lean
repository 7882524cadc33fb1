import LuaChecker.Grammar.Ledger
import Mathlib.Data.List.Induction

/-!
# Where diagnostics come from

Every event adds at most one diagnostic to a ledger, and which one depends on the event and
on what was recorded before it. So a diagnostic of a parse can be traced back to the event
that it comes from.

* `Ledger.record_findings_eq`: what one event adds;
* `Ledger.adds_cases`: the events that add something;
* `Ledger.mem_diagnostics_iff`: the diagnostics of all events;
* `Ledger.diagnostics_prefix`: further events take back nothing.
-/

namespace LuaChecker.Grammar.Ledger

/-- The name or the label under which a header is entered. -/
def headerLabel (l : Ledger) (line : Option Nat) (name : String) : String :=
  if name.isEmpty then anonymousLabel l.anonymous line else name

/-- What an event adds to the findings. -/
def adds? (l : Ledger) : Event → Option (Option Nat × Cause)
  | .finding line cause => some (line, cause)
  | .header line name =>
    let label := l.headerLabel line name
    if l.functions.contains label then some (line, .redefined label) else none
  | .headerLacks line found wanted => some (line, .missing found wanted (.header l.current))
  | .parameters _ _ => none

/-- A finding is reported, a header may be declared already, and of a header something may be
missing. -/
theorem adds_cases {l : Ledger} {e : Event} {line : Option Nat} {cause : Cause}
    (h : l.adds? e = some (line, cause)) :
    e = .finding line cause ∨
      (∃ name, e = .header line name ∧ cause = .redefined (l.headerLabel line name)) ∨
      ∃ found wanted, e = .headerLacks line found wanted ∧
        cause = .missing found wanted (.header l.current) := by
  cases e with
  | finding =>
    cases h
    exact .inl rfl
  | header line' name =>
    obtain ⟨-, h⟩ := Option.ite_none_right_eq_some.mp h
    cases h
    exact .inr (.inl ⟨name, rfl, rfl⟩)
  | headerLacks line' found wanted =>
    cases h
    exact .inr (.inr ⟨found, wanted, rfl, rfl⟩)
  | parameters names variadic => cases h

/-- A finding as it is reported. -/
def diagnosticOf (found : Option Nat × Cause) : Diagnostic :=
  ⟨found.1, found.2.message⟩

theorem declare_findings_eq (l : Ledger) (line : Option Nat) (label : String) :
    (l.declare line label).findings =
      if l.functions.contains label then diagnosticOf (line, .redefined label) :: l.findings
      else l.findings := by
  unfold declare
  split <;> rfl

/-- A header is entered under its label, and a function without a name is counted. -/
theorem record_header_label (l : Ledger) (line : Option Nat) (name : String) :
    l.record (.header line name) =
      { l with anonymous := if name.isEmpty then l.anonymous + 1 else l.anonymous }.declare line
        (l.headerLabel line name) := by
  cases hname : name.isEmpty <;> simp [record, headerLabel, hname]

theorem record_findings_eq (l : Ledger) (e : Event) :
    (l.record e).findings = ((l.adds? e).map diagnosticOf).toList ++ l.findings := by
  cases e with
  | finding line cause => rfl
  | header line name =>
    rw [record_header_label, declare_findings_eq]
    cases hdeclared : l.functions.contains (l.headerLabel line name) <;> simp [adds?, hdeclared]
  | headerLacks line found wanted => rfl
  | parameters names variadic => rfl

/-- Only a header changes which function is the current one. -/
theorem record_current (l : Ledger) (e : Event) :
    (l.record e).current = l.current ∨
      ∃ line name, e = .header line name ∧ (l.record e).current = l.headerLabel line name := by
  cases e with
  | header line name => exact .inr ⟨line, name, rfl, by rw [record_header_label, declare]⟩
  | finding | headerLacks | parameters => exact .inl rfl

theorem diagnostics_concat_event (es : List Event) (e : Event) :
    (ofEvents (es ++ [e])).diagnostics =
      (ofEvents es).diagnostics ++ (((ofEvents es).adds? e).map diagnosticOf).toList := by
  rw [ofEvents_append, List.foldl_cons, List.foldl_nil, diagnostics, record_findings_eq,
    List.reverse_append, diagnostics]
  cases (ofEvents es).adds? e <;> rfl

/-- A diagnostic comes from an event, and from what was recorded before it. -/
theorem mem_diagnostics_iff {es : List Event} {d : Diagnostic} :
    d ∈ (ofEvents es).diagnostics ↔
      ∃ past e later found, es = past ++ e :: later ∧ (ofEvents past).adds? e = some found ∧
        diagnosticOf found = d := by
  induction es using List.reverseRecOn with
  | nil => simp [ofEvents, initial, diagnostics]
  | append_singleton es last ih =>
    rw [diagnostics_concat_event, List.mem_append, ih, Option.mem_toList,
      Option.map_eq_some_iff]
    constructor
    · rintro (⟨past, e, later, found, rfl, hadds, hfound⟩ | ⟨found, hadds, hfound⟩)
      · exact ⟨past, e, later ++ [last], found, by simp, hadds, hfound⟩
      · exact ⟨es, last, [], found, rfl, hadds, hfound⟩
    · rintro ⟨past, e, later, found, heq, hadds, hfound⟩
      rcases List.eq_nil_or_concat later with rfl | ⟨later, e', rfl⟩
      · obtain ⟨rfl, rfl⟩ := List.append_singleton_inj.mp heq
        exact .inr ⟨found, hadds, hfound⟩
      · rw [List.concat_eq_append, ← List.cons_append, ← List.append_assoc] at heq
        obtain ⟨rfl, rfl⟩ := List.append_singleton_inj.mp heq
        exact .inl ⟨past, e, later, found, rfl, hadds, hfound⟩

/-- What was reported stays so. -/
theorem diagnostics_prefix (es fs : List Event) :
    (ofEvents es).diagnostics <+: (ofEvents (es ++ fs)).diagnostics := by
  induction fs using List.reverseRecOn with
  | nil => simp
  | append_singleton fs e ih =>
    rw [← List.append_assoc, diagnostics_concat_event]
    exact ih.trans (List.prefix_append _ _)

end LuaChecker.Grammar.Ledger

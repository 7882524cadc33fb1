import LuaChecker.Proofs.Json.Grammar
import LuaChecker.Report

/-!
# Reading a report

The form of a report in JSON holds all of it. Its fields are found by their keys: the
diagnostics in their order, where the end of the input is `null`, and the functions with their
parameters, whether there are diagnostics or not.

* `isPlain_toJson`: the numbers and strings of a report can be written;
* `errors?_toJson`, `functions?_toJson`: the two fields of a report;
* `json_determines_report`: what is read from the text of a report.
-/

namespace LuaChecker

open Decimal

/-! ## Reading values -/

namespace Json

/-- The value of a key in an object. -/
def field? (key : String) : Json → Option Json
  | .object members => members.lookup (some key)
  | _ => none

def string? : Json → Option String
  | .string text => text
  | _ => none

/-- A natural number, written with digits alone. -/
def natural? : Json → Option Nat
  | .number ⟨false, whole, [], none⟩ => some (ofDigits whole)
  | _ => none

/-- A value that may be absent, and then is `null`. -/
def orNull? {α : Type} (read? : Json → Option α) : Json → Option (Option α)
  | .null => some none
  | j => (read? j).map some

def list? {α : Type} (read? : Json → Option α) : Json → Option (List α)
  | .array items => items.mapM read?
  | _ => none

/-- The keys of an object with their values, in the order in which they stand there. -/
def entries? {α : Type} (read? : Json → Option α) : Json → Option (List (String × α))
  | .object members => members.mapM fun m => do return (← m.1, ← read? m.2)
  | _ => none

theorem isNumeral_ofNat (n : Nat) : IsNumeral (.ofNat n) := by
  refine ⟨digits_ne_nil n, fun hlead => ?_⟩
  rcases Nat.eq_zero_or_pos n with rfl | hpos
  · rw [Numeral.ofNat, digits]
    rfl
  · exact absurd hlead (head?_digits hpos)

theorem natural?_ofNat (n : Nat) : natural? (ofNat n) = some n :=
  congrArg some (ofDigits_digits n)

/-- What is read from each value that is written is read from the list of them. -/
theorem mapM_written {α β : Type} (write : α → β) (read? : β → Option α)
    (h : ∀ a, read? (write a) = some a) (items : List α) :
    (items.map write).mapM read? = some items := by
  have hread : read? ∘ write = fun a => pure (id a) := funext h
  rw [List.mapM_map, hread, List.mapM_pure, List.map_id]
  rfl

theorem lookup_map {α : Type} (write : α → Json) (key : String) (entries : List (String × α)) :
    (entries.map fun e => ((some e.1 : Text), write e.2)).lookup (some key) =
      (entries.lookup key).map write := by
  induction entries with
  | nil => rfl
  | cons e entries ih =>
    rw [List.map_cons, List.lookup_cons, List.lookup_cons, ih]
    change (match key == e.1 with | true => _ | false => _) = _
    cases key == e.1 with
    | true => rfl
    | false => rfl

end Json

namespace Report

open Json

def diagnostic? (j : Json) : Option Diagnostic := do
  let line ← (j.field? "line").bind (orNull? natural?)
  let message ← (j.field? "message").bind string?
  return ⟨line, message⟩

/-- The diagnostics in a report. -/
def errors? (j : Json) : Option (List Diagnostic) :=
  (j.field? "errors").bind (list? diagnostic?)

/-- The functions in a report. -/
def functions? (j : Json) : Option FunctionTable :=
  ((j.field? "functions").bind (entries? (list? string?))).map FunctionTable.mk

/-- The parameters of a function in a report. -/
def params? (j : Json) (name : String) : Option (List String) :=
  ((j.field? "functions").bind (field? name)).bind (list? string?)

/-! ## What is written -/

theorem isPlain_diagnosticJson (d : Diagnostic) : (diagnosticJson d).IsPlain := by
  cases hline : d.line with
  | some line =>
    rw [diagnosticJson, hline]
    exact ⟨rfl, isNumeral_ofNat line, rfl, rfl, trivial⟩
  | none =>
    rw [diagnosticJson, hline]
    exact ⟨rfl, trivial, rfl, rfl, trivial⟩

theorem arePlain_map {α : Type} (write : α → Json) (h : ∀ a, (write a).IsPlain) (items : List α) :
    ArePlain (items.map write) := by
  induction items with
  | nil => trivial
  | cons a items ih => exact ⟨h a, ih⟩

theorem areMembersPlain_map {α : Type} (write : α → Json) (h : ∀ a, (write a).IsPlain)
    (entries : List (String × α)) :
    AreMembersPlain (entries.map fun e => (some e.1, write e.2)) := by
  induction entries with
  | nil => trivial
  | cons e entries ih => exact ⟨rfl, h e.2, ih⟩

/-- Parameters as a JSON value. -/
def paramsJson (params : List String) : Json :=
  .array (params.map .ofString)

theorem toJson_eq (r : Report) :
    r.toJson = .object
      [(some "errors", .array (r.diagnostics.map diagnosticJson)),
        (some "functions",
          .object (r.functions.entries.map fun e => (some e.1, paramsJson e.2)))] := by
  rw [toJson, ofMembers, ofMembers, List.map_cons, List.map_cons, List.map_map]
  rfl

theorem isPlain_toJson (r : Report) : r.toJson.IsPlain := by
  have hparams (params : List String) : (paramsJson params).IsPlain :=
    arePlain_map Json.ofString (fun _ => rfl) params
  rw [toJson_eq]
  exact ⟨rfl, arePlain_map _ isPlain_diagnosticJson _, rfl, areMembersPlain_map _ hparams _,
    trivial⟩

/-! ## What is read -/

theorem diagnostic?_diagnosticJson (d : Diagnostic) : diagnostic? (diagnosticJson d) = some d := by
  obtain ⟨line, message⟩ := d
  cases line with
  | some line =>
    have hline : orNull? natural? (ofNat line) = some (some line) :=
      congrArg (Option.map some) (natural?_ofNat line)
    change ((orNull? natural? (ofNat line)).bind fun line =>
      some (⟨line, message⟩ : Diagnostic)) = _
    rw [hline]
    rfl
  | none => rfl

theorem errors?_toJson (r : Report) : errors? r.toJson = some r.diagnostics := by
  rw [toJson_eq]
  exact mapM_written _ _ diagnostic?_diagnosticJson r.diagnostics

theorem list?_paramsJson (params : List String) :
    list? string? (paramsJson params) = some params :=
  mapM_written Json.ofString string? (fun _ => rfl) params

theorem functions?_toJson (r : Report) : functions? r.toJson = some r.functions := by
  have hentry (e : String × List String) :
      (do return (← some e.1, ← list? string? (paramsJson e.2)) : Option _) = some e := by
    rw [list?_paramsJson]
    rfl
  have hentries := mapM_written (fun e : String × List String => (some e.1, paramsJson e.2))
    (fun m => do return (← m.1, ← list? string? m.2)) hentry r.functions.entries
  rw [toJson_eq]
  exact congrArg (Option.map FunctionTable.mk) hentries

theorem params?_toJson (r : Report) (name : String) :
    params? r.toJson name = r.functions.params? name := by
  have hlookup := lookup_map paramsJson name r.functions.entries
  rw [toJson_eq]
  change (((r.functions.entries.map fun e => (some e.1, paramsJson e.2)).lookup (some name)).bind
    (list? string?)) = _
  rw [hlookup, FunctionTable.params?]
  cases r.functions.entries.lookup name with
  | none => rfl
  | some params => exact list?_paramsJson params

/-- **A report in the form of JSON.** Its text is JSON. What is read from it has all diagnostics
of the report in their order, with the end of the input as `null`, and its function table, be
there diagnostics or not; so no other report has the same text. -/
theorem json_determines_report (r : Report) :
    IsJson r.toJsonText ∧
      (∃ j, Json.read? r.toJsonText = some j ∧ errors? j = some r.diagnostics ∧
        functions? j = some r.functions ∧ ∀ name, params? j name = r.functions.params? name) ∧
      ∀ other : Report, other.toJsonText = r.toJsonText ↔ other = r := by
  have hread (r : Report) : Json.read? r.toJsonText = some r.toJson := read?_pretty r.isPlain_toJson
  refine ⟨isJson_pretty r.isPlain_toJson, ⟨r.toJson, hread r, errors?_toJson r,
    functions?_toJson r, params?_toJson r⟩, fun other => ⟨fun htext => ?_, congrArg _⟩⟩
  have hjson : other.toJson = r.toJson := by
    have hsame := hread other
    rw [htext, hread r] at hsame
    exact (Option.some.inj hsame).symm
  have herrors := errors?_toJson other
  have hfunctions := functions?_toJson other
  rw [hjson, errors?_toJson] at herrors
  rw [hjson, functions?_toJson] at hfunctions
  cases other
  cases herrors
  cases hfunctions
  rfl

end Report

end LuaChecker

import LuaChecker.Decimal.Style
import LuaChecker.Json.Double
import LuaChecker.Json.Pretty
import LuaChecker.Json.Read
import LuaChecker.Settings.Basic

/-!
# Settings files

Settings are kept in a JSON file. It may be an object, where unknown keys are ignored and
known ones must not be repeated, or an array with the settings in their order. What is not
given has its default. A file is refused if its threshold is not a number from 0 to 1.

* `ofText_eq_ok`: a file is accepted if it is JSON, has the shape of settings, and its
  threshold is valid.
-/

namespace LuaChecker.Settings

/-- Why settings are refused. -/
inductive Fault
  /-- The file is not JSON, or does not have the shape of settings. -/
  | shape
  | threshold (found : Float)

/-! ## Numbers -/

/-- In messages a threshold is written with all its places; of two equally near decimals the
upper is taken. -/
def messageStyle : Decimal.Style :=
  ⟨fun _ => true, false, .up⟩

/-- In files a threshold is written with all its places if its first digit stands for
10 ^ -5 to 10 ^ 15, and then has a point; of two equally near decimals the even is taken. -/
def fileStyle : Decimal.Style :=
  ⟨fun e => -5 ≤ e && e ≤ 15, true, .toEven⟩

/-- What is said about a threshold that is refused. -/
def thresholdMessage (found : Float) : String :=
  "similarity_threshold must be between 0 and 1, got " ++ messageStyle.render found

/-- Refuses settings whose threshold is not a number from 0 to 1. -/
def validate (s : Settings) : Except Fault Settings :=
  if s.isValid then .ok s else .error (.threshold s.threshold)

/-! ## Writing -/

/-- Settings as a JSON value. A threshold that is not finite is written as `null`. -/
def toJson (s : Settings) : Json :=
  .ofMembers
    [("similarity_threshold", match fileStyle.numeral? s.threshold with
        | some n => .number n
        | none => .null),
      ("lua_comments", .bool s.comments),
      ("format", .ofString s.format.label)]

def toText (s : Settings) : String :=
  s.toJson.pretty

/-! ## Reading -/

def threshold? : Json → Option Float
  | .number n => Json.double? n
  | _ => none

def comments? : Json → Option Bool
  | .bool b => some b
  | _ => none

/-- A format: its name, or an object with its name as the only key and the value `null`. -/
def format? : Json → Option Format
  | .string (some label) => Format.ofLabel? label
  | .object [(some label, .null)] => Format.ofLabel? label
  | _ => none

/-- A member of an object, read by `read?`, or its default; none if it is repeated. -/
def member? {α : Type} (members : List (Json.Text × Json)) (key : String) (default : α)
    (read? : Json → Option α) : Option α :=
  match members.filter (·.1 = some key) with
  | [] => some default
  | [m] => read? m.2
  | _ => none

/-- An item of an array, read by `read?`, or its default. -/
def item? {α : Type} (items : List Json) (index : Nat) (default : α)
    (read? : Json → Option α) : Option α :=
  match items[index]? with
  | some item => read? item
  | none => some default

/-- The settings that a JSON value stands for. -/
def ofJson? : Json → Option Settings
  | .object members => do
    guard (members.all (·.1.isSome))
    let threshold ← member? members "similarity_threshold" default.threshold threshold?
    let comments ← member? members "lua_comments" default.comments comments?
    let format ← member? members "format" default.format format?
    return ⟨threshold, comments, format⟩
  | .array items => do
    guard (items.length ≤ 3)
    let threshold ← item? items 0 default.threshold threshold?
    let comments ← item? items 1 default.comments comments?
    let format ← item? items 2 default.format format?
    return ⟨threshold, comments, format⟩
  | _ => none

/-- The settings in a settings file. -/
def ofText (text : String) : Except Fault Settings :=
  match (Json.read? text).bind ofJson? with
  | some s => s.validate
  | none => .error .shape

theorem ofText_eq_ok {text : String} {s : Settings} :
    ofText text = .ok s ↔ (Json.read? text).bind ofJson? = some s ∧ s.isValid = true := by
  unfold ofText
  cases h : (Json.read? text).bind ofJson? with
  | none => simp
  | some t =>
    simp only [validate, Option.some.injEq]
    split
    · rename_i hv
      constructor
      · intro he
        cases he
        exact ⟨rfl, hv⟩
      · rintro ⟨rfl, -⟩
        rfl
    · rename_i hv
      constructor
      · intro he
        cases he
      · rintro ⟨rfl, hs⟩
        exact absurd hs hv

end LuaChecker.Settings

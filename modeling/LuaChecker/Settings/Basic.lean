import LuaChecker.Similarity.Ratio

/-!
# Settings

What a user can choose: how alike a misspelt word has to be to the right one, whether
comments are skipped, and how a report is written.
-/

namespace LuaChecker

inductive Format
  | text
  | json
  deriving DecidableEq, Repr

def Format.label : Format → String
  | .text => "text"
  | .json => "json"

def Format.ofLabel? (label : String) : Option Format :=
  [Format.text, Format.json].find? (·.label = label)

theorem Format.ofLabel?_label (f : Format) : ofLabel? f.label = some f := by
  cases f <;> rfl

structure Settings where
  /-- A word is read as a misspelling if its likeness exceeds this. -/
  threshold : Float
  comments : Bool
  format : Format
  deriving DecidableEq

namespace Settings

/-- The settings used where nothing is chosen. -/
def default : Settings :=
  ⟨Similarity.defaultThreshold, false, .text⟩

/-- Whether the threshold is a share: a number from 0 to 1. -/
def isValid (s : Settings) : Bool :=
  0.0 ≤ s.threshold && s.threshold ≤ 1.0

end Settings

end LuaChecker

import LuaChecker.Proofs.CommandLine.Checking
import LuaChecker.Proofs.CommandLine.Files
import LuaChecker.Proofs.Settings.Text

/-!
# Saving settings and loading them

Saving creates the directories of a path and writes the text of the settings into the file, and
loading from the same path reads this text.

* `outcome_saveSettings`: to what saving leads;
* `saved_settings`: what is loaded after it;
* `nearlyOne_loaded_as_one`: a threshold that does not come back.
-/

namespace LuaChecker.CommandLine

open Settings

theorem textOf_toUTF8 (text : String) : World.textOf text.toUTF8 = .ok text := by
  unfold World.textOf
  have hdecode : String.fromUTF8? text.toUTF8 = some text := by
    unfold String.fromUTF8?
    exact dif_pos text.isValidUTF8
  rw [hdecode]

/-- The directories of a settings file are created first, and stay if the file itself cannot be
written. -/
theorem outcome_saveSettings (s : Settings) (path : String) (w : World) :
    outcome (saveSettings s path) w =
      match w.tree.createParents path with
      | (.error fault, made) => (.error (.file fault), w.withTree made)
      | (.ok _, made) =>
        match made.write path s.toText.toUTF8 with
        | .error fault => (.error (.file fault), w.withTree made)
        | .ok written => (.ok (), w.withTree written) := by
  have hparents := outcome_createParents path w
  unfold saveSettings
  generalize w.tree.createParents path = change at hparents ⊢
  obtain ⟨result, made⟩ := change
  cases result with
  | error fault => exact outcome_bind_error hparents
  | ok u =>
    rw [outcome_bind_ok hparents, outcome_writeFile, World.tree_withTree]
    simp only
    cases made.write path s.toText.toUTF8 with
    | error fault => rfl
    | ok written => rfl

/-- Saving settings leaves their text in the file. -/
theorem saveSettings_eq_ok {s : Settings} {path : String} {w w' : World}
    (h : outcome (saveSettings s path) w = (.ok (), w')) :
    w'.tree.contains path = true ∧ w'.text path = .ok s.toText := by
  rw [outcome_saveSettings] at h
  split at h
  · cases h
  · split at h
    · cases h
    · rename_i hwrite
      cases h
      obtain ⟨hthere, hread⟩ := Disk.read_write hwrite
      refine ⟨hthere, ?_⟩
      unfold World.text
      rw [World.tree_withTree, hread]
      exact textOf_toUTF8 s.toText

/-- **Saving and loading.** Settings that are saved to a path and loaded from it have the same
format and the same choice about comments. They are loaded exactly if they were valid, and then
they have the same threshold if its shortest decimal is exact. -/
theorem saved_settings {s : Settings} {path : String} {w w' : World}
    (h : outcome (saveSettings s path) w = (.ok (), w')) :
    (s.isValid = true →
      ∃ t, outcome (loadSettings (some path)) w' = (.ok ⟨t, s.comments, s.format⟩, w') ∧
        IsShare t ∧ (hasExactDecimal s.threshold = true → t = s.threshold)) ∧
      (s.isValid = false →
        ∃ fault, outcome (loadSettings (some path)) w' = (.error (.settings fault), w')) := by
  obtain ⟨hthere, htext⟩ := saveSettings_eq_ok h
  have hload : outcome (loadSettings (some path)) w' =
      ((ofText s.toText).mapError .settings, w') := by
    rw [outcome_loadSettings, World.settings, if_pos hthere, World.settingsIn, htext]
  constructor
  · intro hvalid
    obtain ⟨t, hread, hshare, hexact⟩ := ofText_of_valid hvalid
    refine ⟨t, ?_, hshare, hexact⟩
    rw [hload, hread]
    rfl
  · intro hinvalid
    obtain ⟨fault, hread⟩ := ofText_of_invalid hinvalid
    refine ⟨fault, ?_⟩
    rw [hload, hread]
    rfl

/-- A world whose working directory is empty. -/
def World.bare : World := ⟨⟨⟨[], [["work"]]⟩, ["work"]⟩, [], [], ""⟩

/-- Settings that differ from the default in everything. -/
def allChosen : Settings := ⟨0.8, true, .json⟩

/-- The file in which these settings are saved, in a directory of its own. -/
def allChosenSaved : World :=
  ⟨⟨⟨[(["work", "nested", "config.json"], allChosen.toText.toUTF8)],
    [["work", "nested"], ["work"]]⟩, ["work"]⟩, [], [], ""⟩

theorem outcome_saveSettings_allChosen :
    outcome (saveSettings allChosen "nested/config.json") .bare = (.ok (), allChosenSaved) := by
  rw [outcome_saveSettings]
  rfl

/-- Settings whose decimal is exact come back as they were. -/
theorem saved_settings_allChosen :
    outcome (saveSettings allChosen "nested/config.json") .bare = (.ok (), allChosenSaved) ∧
      allChosen.isValid = true ∧ hasExactDecimal allChosen.threshold = true ∧
      outcome (loadSettings (some "nested/config.json")) allChosenSaved =
        (.ok allChosen, allChosenSaved) := by
  have hvalid : allChosen.isValid = true := by decide +kernel
  have hexact : hasExactDecimal allChosen.threshold = true := by decide +kernel
  obtain ⟨t, hload, -, hsame⟩ := (saved_settings outcome_saveSettings_allChosen).1 hvalid
  rw [hsame hexact] at hload
  exact ⟨outcome_saveSettings_allChosen, hvalid, hexact, hload⟩

/-- Settings with the greatest threshold below 1. -/
def nearlyOne : Settings := ⟨0.9999999999999999, false, .text⟩

/-- The file in which these settings are saved. -/
def nearlyOneSaved : World :=
  ⟨⟨⟨[(["work", "config.json"], nearlyOne.toText.toUTF8)], [["work"]]⟩, ["work"]⟩, [], [], ""⟩

/-- The integer of the decimal is too large for a double, and the threshold is read as 1. -/
theorem nearlyOne_loaded_as_one :
    nearlyOne.isValid = true ∧
      outcome (saveSettings nearlyOne "config.json") .bare = (.ok (), nearlyOneSaved) ∧
      outcome (loadSettings (some "config.json")) nearlyOneSaved =
        (.ok ⟨1.0, false, .text⟩, nearlyOneSaved) ∧
      nearlyOne.threshold ≠ 1.0 := by
  have hsaved : outcome (saveSettings nearlyOne "config.json") .bare = (.ok (), nearlyOneSaved) := by
    rw [outcome_saveSettings]
    rfl
  have hread : threshold? (thresholdJson nearlyOne.threshold) = some 1.0 := by decide +kernel
  have hvalid : Settings.isValid ⟨1.0, nearlyOne.comments, nearlyOne.format⟩ = true := by
    decide +kernel
  obtain ⟨hthere, htext⟩ := saveSettings_eq_ok hsaved
  refine ⟨by decide +kernel, hsaved, ?_, by decide +kernel⟩
  rw [outcome_loadSettings, World.settings, if_pos hthere, World.settingsIn, htext]
  simp only [ofText_toText, hread, validate]
  rw [if_pos hvalid]
  rfl

end LuaChecker.CommandLine

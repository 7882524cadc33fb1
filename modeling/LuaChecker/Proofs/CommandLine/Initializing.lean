import LuaChecker.Proofs.CommandLine.Directories
import LuaChecker.Proofs.CommandLine.Saving

/-!
# Which commands write files

No command but `config init` changes the files, and this one only creates the settings file
where its path leads nowhere. The file then holds the default settings, which are found there
by the commands that follow. Creating the directories of a path can make it lead somewhere: a
path that leaves a missing directory by two dots may then lead to a file that was there before,
and this file is written over.

* `outcome_runConfig_show`, `outcome_runConfig_init`: to what the settings commands lead;
* `Initialized`: what there is after a settings file was created;
* `initialized_of_save`: that this is so after the default settings were saved;
* `only_init_writes`: what a run does with the files;
* `init_writes_over`: a file that is written over.
-/

namespace LuaChecker.CommandLine

open Settings

/-! ## Settings commands -/

namespace World

/-- The settings file that a command uses, if this one or none is named. -/
def configFor (w : World) : Option String → String
  | some path => path
  | none => w.configPath

theorem configFor_congr {w w' : World} (h : w'.environment = w.environment)
    (file : Option String) : w'.configFor file = w.configFor file := by
  cases file with
  | some path => rfl
  | none =>
    change w'.configPath = w.configPath
    rw [configPath, configPath, h]

/-- The settings in a file that may be missing. -/
def settingsOrDefault (w : World) (path : String) : Except Failure Settings :=
  if w.tree.contains path then w.settingsIn path else .ok .default

end World

theorem outcome_runCommand_config (file : Option String) (action : ConfigAction) (w : World) :
    outcome (runCommand (.config file action)) w =
      outcome (runConfig (w.configFor file) action) w := by
  cases file with
  | some path => rfl
  | none => exact outcome_bind_ok (outcome_defaultConfigPath w)

theorem outcome_runConfig_show (path : String) (w : World) :
    outcome (runConfig path .show) w =
      match w.settingsOrDefault path with
      | .ok settings => (.ok .success, w.printed (settings.toText ++ "\n"))
      | .error failure => (.error failure, w) := by
  have hload : outcome (settingsInOr path (return Settings.default)) w =
      (w.settingsOrDefault path, w) := by
    rw [outcome_settingsInOr, World.settingsOrDefault]
    split <;> rfl
  unfold runConfig
  cases hsettings : w.settingsOrDefault path with
  | error failure =>
    rw [hsettings] at hload
    exact outcome_bind_error hload
  | ok settings =>
    rw [hsettings] at hload
    rw [outcome_bind_ok hload]
    exact outcome_bind_ok (outcome_print _ w)

/-- What is said if there is a settings file. -/
def presentMessage (path : String) : String :=
  "Config file already exists at: " ++ path ++ "\nRemove it to reinitialize.\n"

theorem outcome_runConfig_init (path : String) (w : World) :
    outcome (runConfig path .init) w =
      if w.tree.contains path then (.ok .success, w.printed (presentMessage path))
      else
        match outcome (saveSettings .default path) w with
        | (.ok (), w') =>
          (.ok .success, w'.printed ("Initialized new config file at: " ++ path ++ "\n"))
        | (.error failure, w') => (.error failure, w') := by
  have hexists : outcome
      (liftM (Host.pathExists (m := StateM World) path) : Program (StateM World) Bool) w =
        (.ok (w.tree.contains path), w) := rfl
  unfold runConfig
  rw [outcome_bind_ok hexists]
  cases w.tree.contains path with
  | true => exact outcome_bind_ok (outcome_print _ w)
  | false =>
    cases hsave : outcome (saveSettings .default path) w with
    | mk result w' =>
      cases result with
      | error failure => exact outcome_bind_error hsave
      | ok u => exact (outcome_bind_ok hsave).trans (outcome_bind_ok (outcome_print _ w'))

/-! ## The file that is created -/

/-- What there is after the settings file was created that a command uses which names `file`. -/
structure Initialized (file : Option String) (place : Names) (w w' : World) : Prop where
  leads : w'.tree.resolve (w.configFor file) = .ok place
  holds : w'.tree.bytesAt? place = some Settings.default.toText.toUTF8
  others : ∀ q, q ≠ place → w'.tree.bytesAt? q = w.tree.bytesAt? q
  /-- A file that was there before was not to be found under the path. -/
  hidden : (w.tree.bytesAt? place).isSome = true →
    ".." ∈ namesOf (w.configFor file) ∧ ∃ fault, w.tree.resolve (w.configFor file) = .error fault
  /-- The same command changes nothing any more. -/
  again : outcome (runCommand (.config file .init)) w' =
    (.ok .success, w'.printed (presentMessage (w.configFor file)))
  shown : outcome (runCommand (.config file .show)) w' =
    (.ok .success, w'.printed (Settings.default.toText ++ "\n"))
  /-- The settings with which a check starts. -/
  loaded : outcome (loadSettings file) w' = (.ok .default, w')

theorem ofText_default : ofText Settings.default.toText = .ok .default := by
  have hvalid : Settings.default.isValid = true := by decide +kernel
  have hexact : hasExactDecimal Settings.default.threshold = true := by decide +kernel
  obtain ⟨t, hread, -, hsame⟩ := ofText_of_valid hvalid
  rw [hread, hsame hexact]

/-- A settings file with the default settings is loaded as these. -/
theorem settings_of_text {w : World} {file : Option String}
    (hthere : w.tree.contains (w.configFor file) = true)
    (htext : w.text (w.configFor file) = .ok Settings.default.toText) :
    w.settingsOrDefault (w.configFor file) = .ok .default ∧ w.settings file = .ok .default := by
  have hin : w.settingsIn (w.configFor file) = .ok .default := by
    rw [World.settingsIn, htext]
    simp only [ofText_default]
    rfl
  refine ⟨(if_pos hthere).trans hin, ?_⟩
  cases file with
  | some path => exact (if_pos hthere).trans hin
  | none => exact (if_pos hthere).trans hin

/-- Saving creates directories and writes one file. -/
theorem saveSettings_eq_put {s : Settings} {path : String} {w w' : World}
    (h : outcome (saveSettings s path) w = (.ok (), w')) :
    ∃ made place, (w.tree.createParents path).2 = made ∧
      made.write path s.toText.toUTF8 = .ok w'.tree ∧ w'.tree.resolve path = .ok place ∧
      w'.tree = made.put place s.toText.toUTF8 ∧ w'.environment = w.environment := by
  rw [outcome_saveSettings] at h
  split at h
  · cases h
  · rename_i made hmade
    split at h
    · cases h
    · rename_i written hwrite
      cases h
      obtain ⟨place, hplace, hput⟩ := Disk.write_eq_put hwrite
      exact ⟨made, place, congrArg Prod.snd hmade, hwrite, hplace, hput, rfl⟩

/-- Saving that fails changes no file. -/
theorem files_of_saveSettings_error {s : Settings} {path : String} {w w' : World}
    {failure : Failure} (h : outcome (saveSettings s path) w = (.error failure, w')) :
    w'.tree.files = w.tree.files := by
  have hfiles := (Disk.files_createParents w.tree path).1
  rw [outcome_saveSettings] at h
  split at h
  · rename_i fault made hmade
    cases h
    rwa [hmade] at hfiles
  · rename_i made hmade
    rw [hmade] at hfiles
    split at h
    · cases h
      exact hfiles
    · cases h

theorem initialized_of_save {file : Option String} {w w' : World} (message : String)
    (hmissing : w.tree.contains (w.configFor file) = false)
    (hsave : outcome (saveSettings .default (w.configFor file)) w = (.ok (), w')) :
    ∃ place, Initialized file place w (w'.printed message) := by
  obtain ⟨hthere, htext⟩ := saveSettings_eq_ok hsave
  obtain ⟨made, place, hmade, hwrite, hplace, hput, henvironment⟩ := saveSettings_eq_put hsave
  obtain ⟨hfiles, hdirectory⟩ := Disk.files_createParents w.tree (w.configFor file)
  rw [hmade] at hfiles hdirectory
  have hpath : (w'.printed message).configFor file = w.configFor file :=
    World.configFor_congr henvironment file
  have hthere' : (w'.printed message).tree.contains ((w'.printed message).configFor file) = true :=
    hpath ▸ hthere
  have htext' : (w'.printed message).text ((w'.printed message).configFor file) =
      .ok Settings.default.toText := hpath ▸ htext
  obtain ⟨hshown, hloaded⟩ := settings_of_text hthere' htext'
  refine ⟨place, hplace, ?_, fun q hq => ?_, fun hold => ⟨?_, ?_⟩, ?_, ?_, ?_⟩
  · change w'.tree.bytesAt? place = _
    rw [hput]
    exact FileTree.bytesAt?_put _ _ _
  · change w'.tree.bytesAt? q = _
    rw [hput]
    exact (FileTree.bytesAt?_put_of_ne hq _).trans (congrArg (List.lookup q) hfiles)
  · exact Disk.dots_of_overwritten hmissing hmade hwrite hplace hold
  · exact Disk.resolve_of_overwritten hmissing (hput ▸ hdirectory) hplace hold
  · rw [outcome_runCommand_config, outcome_runConfig_init, if_pos hthere', hpath]
  · rw [outcome_runCommand_config, outcome_runConfig_show, hshown]
  · rw [outcome_loadSettings, hloaded]

/-! ## Runs of the program -/

theorem tree_runCheck (options : CheckOptions) (w : World) :
    (outcome (runCheck options) w).2.tree = w.tree := by
  have hasked : (w.asked options.file).tree = w.tree := by
    cases options.file <;> rfl
  rw [outcome_runCheck]
  cases w.settingsFor options with
  | error failure => rfl
  | ok settings =>
    cases w.sourceFor options.file with
    | error failure => exact hasked
    | ok source => exact hasked

theorem tree_runTokens (path : String) (comments : Bool) (w : World) :
    (outcome (runTokens path comments) w).2.tree = w.tree := by
  have hread := outcome_readSource path w
  unfold runTokens
  cases hsource : w.source path with
  | error failure =>
    rw [hsource] at hread
    rw [outcome_bind_error hread]
  | ok source =>
    rw [hsource] at hread
    rw [outcome_bind_ok hread]
    rfl

theorem tree_runConfig_show (path : String) (w : World) :
    (outcome (runConfig path .show) w).2.tree = w.tree := by
  rw [outcome_runConfig_show]
  cases w.settingsOrDefault path <;> rfl

/-- What becomes of the files when a settings file is to be created. -/
theorem outcome_init (file : Option String) (w : World) :
    let r := outcome (runCommand (.config file .init)) w
    if w.tree.contains (w.configFor file) then r.1 = .ok .success ∧ r.2.tree = w.tree
    else
      match r.1 with
      | .ok status => status = .success ∧ ∃ place, Initialized file place w r.2
      | .error _ => r.2.tree.files = w.tree.files := by
  intro r
  have hr : r = outcome (runConfig (w.configFor file) .init) w :=
    outcome_runCommand_config file .init w
  rw [outcome_runConfig_init] at hr
  cases hthere : w.tree.contains (w.configFor file) with
  | true =>
    rw [hthere] at hr
    rw [hr]
    exact ⟨rfl, rfl⟩
  | false =>
    rw [hthere] at hr
    cases hsave : outcome (saveSettings .default (w.configFor file)) w with
    | mk result w' =>
      rw [hsave] at hr
      rw [hr]
      cases result with
      | error failure => exact files_of_saveSettings_error hsave
      | ok u => exact ⟨rfl, initialized_of_save _ hthere hsave⟩

/-- **Only one command writes.** However arguments are read, a run of the program leaves the files
and directories as they are, unless its command is to create a settings file and the path of this
file leads nowhere. Then the run fails and changes no file, or it succeeds, and the default settings
are in the one file that the path leads to. The same command changes nothing after that, and the
commands that use the settings file load the defaults. A file that was at this place before was not
to be found under the path, which leaves a directory by two dots; no other file can be written
over. -/
theorem only_init_writes (read? : List String → Option Command) (arguments : List String)
    (w : World) :
    let r := outcome (runAs read? arguments) w
    match read? arguments with
    | some (.config file .init) =>
      if w.tree.contains (w.configFor file) then r.1 = .ok .success ∧ r.2.tree = w.tree
      else
        match r.1 with
        | .ok status => status = .success ∧ ∃ place, Initialized file place w r.2
        | .error _ => r.2.tree.files = w.tree.files
    | _ => r.2.tree = w.tree := by
  intro r
  cases hcommand : read? arguments with
  | none =>
    have hr : r = (.error .usage, w) := by
      simp only [r, runAs, hcommand, outcome_throw]
    exact congrArg (fun r : Except Failure ExitStatus × World => r.2.tree) hr
  | some command =>
    have hr : r = outcome (runCommand command) w := outcome_runAs hcommand w
    rw [hr]
    cases command with
    | check options => exact tree_runCheck options w
    | tokens path comments => exact tree_runTokens path comments w
    | config file action =>
      cases action with
      | init => exact outcome_init file w
      | «show» =>
        rw [outcome_runCommand_config]
        exact tree_runConfig_show _ w
      | path =>
        rw [outcome_runCommand_config]
        rfl

/-- A world with one file, in the working directory, and a home directory that is missing. -/
def oneFile : World :=
  ⟨⟨⟨[(["work", "good.lua"], "return 1\n".toUTF8)], []⟩, ["work"]⟩, [], [("HOME", "/home")], ""⟩

/-- The settings file is created with its directories. -/
theorem only_init_writes_nested :
    oneFile.configFor none = "/home/.luaparse/config.json" ∧
      oneFile.tree.contains (oneFile.configFor none) = false ∧
      (outcome (run ["config", "init"]) oneFile).1 = .ok .success ∧
      ∃ place, Initialized none place oneFile (outcome (run ["config", "init"]) oneFile).2 := by
  have hcommand : command? ["config", "init"] = some (.config none .init) := by decide +kernel
  have hpath : oneFile.configFor none = "/home/.luaparse/config.json" := by decide +kernel
  have hmissing : oneFile.tree.contains (oneFile.configFor none) = false := by decide +kernel
  have hresult : (outcome (runAs command? ["config", "init"]) oneFile).1 = .ok .success := by
    rw [outcome_runAs hcommand, outcome_runCommand_config, outcome_runConfig_init, hmissing,
      outcome_saveSettings]
    rfl
  have hwrites := only_init_writes command? ["config", "init"] oneFile
  simp only [hcommand, hmissing, hresult] at hwrites
  exact ⟨hpath, hmissing, hresult, hwrites.2⟩

/-- The path leads nowhere, because there is no `x`. Then `x` is created, and the path leads to
the file beside it. -/
theorem init_writes_over :
    let r := outcome (run ["config", "--config", "x/../good.lua", "init"]) oneFile
    oneFile.tree.bytesAt? ["work", "good.lua"] = some "return 1\n".toUTF8 ∧
      r.1 = .ok .success ∧
      r.2.tree.bytesAt? ["work", "good.lua"] = some Settings.default.toText.toUTF8 ∧
      Settings.default.toText.toUTF8 ≠ "return 1\n".toUTF8 := by
  intro r
  have hcommand : command? ["config", "--config", "x/../good.lua", "init"] =
      some (.config (some "x/../good.lua") .init) := by decide +kernel
  have hr : r = outcome (runConfig "x/../good.lua" .init) oneFile :=
    outcome_runAs hcommand oneFile
  have hmissing : oneFile.tree.contains "x/../good.lua" = false := by decide +kernel
  rw [outcome_runConfig_init, hmissing, outcome_saveSettings] at hr
  rw [hr]
  refine ⟨rfl, rfl, rfl, ?_⟩
  decide +kernel

end LuaChecker.CommandLine

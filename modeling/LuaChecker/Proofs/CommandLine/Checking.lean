import LuaChecker.Proofs.CommandLine.Running

/-!
# The command that checks a file

A check is a pure function of the options and of the world, but for what it reads from the
input and writes to the output. The settings are those of the settings file, changed by the
options, and they are looked at before anything else: if they cannot be loaded or are not
valid, nothing is read and nothing is written. Then the file is named, by the options or on
the input, and read; only then does the report appear.

* `World.settingsFor`, `World.sourceFor`: the settings of a check and the text that it reads;
* `outcome_runCheck`: to what a check leads with given options;
* `check_is_pipeline`: the same of the program and its arguments.
-/

namespace LuaChecker.CommandLine

/-! ## What a check depends on -/

namespace World

/-- The settings of a check: the options go before the settings file, and comments are skipped
if one of the two says so. They have to be valid. -/
def settingsFor (w : World) (options : CheckOptions) : Except Failure Settings :=
  match w.settings options.config with
  | .error failure => .error failure
  | .ok loaded =>
    let threshold := options.threshold.getD loaded.threshold
    let merged : Settings :=
      ⟨threshold, loaded.comments || options.comments, options.format.getD loaded.format⟩
    if merged.isValid then .ok merged else .error (.settings (.threshold threshold))

/-- The file name on the first line of the input. -/
def namedFile (w : World) : Except Failure String :=
  match textOf ⟨(splitLine w.input).1.toArray⟩ with
  | .ok line => .ok (String.ofList (Text.trim line.toList))
  | .error fault => .error (.file fault)

/-- The text in a file that is to be checked. -/
def source (w : World) (path : String) : Except Failure String :=
  match w.text path with
  | .ok text => .ok text
  | .error .notFound => .error (.fileNotFound path)
  | .error fault => .error (.file fault)

/-- The file that is to be checked: the one that the options name, or else the one on the
input. -/
def pathFor (w : World) : Option String → Except Failure String
  | some path => .ok path
  | none => w.namedFile

/-- The text that is to be checked. -/
def sourceFor (w : World) (file : Option String) : Except Failure String :=
  match w.pathFor file with
  | .ok path => w.source path
  | .error failure => .error failure

/-- The world after the file name was asked for, if it was not given. -/
def asked (w : World) : Option String → World
  | some _ => w
  | none => { w.printed "Give filename:\n" with input := (splitLine w.input).2 }

end World

/-! ## The stages of a check -/

theorem outcome_checkSettings (options : CheckOptions) (w : World) :
    outcome (checkSettings options) w = (w.settingsFor options, w) := by
  have hload := outcome_loadSettings options.config w
  unfold checkSettings World.settingsFor
  cases hsettings : w.settings options.config with
  | error failure =>
    rw [hsettings] at hload
    exact outcome_bind_error hload
  | ok loaded =>
    rw [hsettings] at hload
    rw [outcome_bind_ok hload]
    by_cases hvalid : (options.override loaded).isValid = true
    · have hvalidate : (options.override loaded).validate = .ok (options.override loaded) :=
        if_pos hvalid
      rw [hvalidate]
      exact congrArg (fun result => (result, w)) (if_pos hvalid).symm
    · have hvalidate : (options.override loaded).validate =
        .error (.threshold (options.override loaded).threshold) := if_neg hvalid
      rw [hvalidate]
      exact congrArg (fun result => (result, w)) (if_neg hvalid).symm

theorem outcome_readSource (path : String) (w : World) :
    outcome (readSource path) w = (w.source path, w) := by
  rw [readSource, outcome_readText, World.source]
  · cases w.text path with
    | ok text => rfl
    | error fault => cases fault <;> rfl
  · rfl

theorem outcome_askForFile (w : World) :
    outcome askForFile w = (w.namedFile, w.asked none) := by
  have hline : outcome (orFail .file Host.readLine) (w.printed "Give filename:\n") =
      (.ok ⟨(World.splitLine w.input).1.toArray⟩, w.asked none) := outcome_orFail _ _ _
  have hdecode := outcome_decode ⟨(World.splitLine w.input).1.toArray⟩ (w.asked none)
  unfold askForFile World.namedFile
  rw [outcome_bind_ok (outcome_print _ w), outcome_bind_ok hline]
  cases htext : World.textOf ⟨(World.splitLine w.input).1.toArray⟩ with
  | ok line =>
    rw [htext] at hdecode
    exact outcome_bind_ok hdecode
  | error fault =>
    rw [htext] at hdecode
    exact outcome_bind_error hdecode

/-- The part of a check that names the file. -/
def nameFile {m : Type → Type} [Monad m] [Host m] : Option String → Program m String
  | some path => pure path
  | none => askForFile

/-- The part of a check that reads the file and writes the report. -/
def checkFile {m : Type → Type} [Monad m] [Host m] (options : CheckOptions) (settings : Settings)
    (path : String) : Program m ExitStatus := do
  let source ← readSource path
  let report := check settings source
  print (renderReport report settings.format)
  return if options.denyErrors && report.hasErrors then .denied else .success

theorem runCheck_eq {m : Type → Type} [Monad m] [Host m] (options : CheckOptions) :
    (runCheck options : Program m ExitStatus) =
      checkSettings options >>= fun settings =>
        nameFile options.file >>= checkFile options settings := by
  unfold runCheck nameFile
  cases options.file <;> rfl

theorem outcome_nameFile (file : Option String) (w : World) :
    outcome (nameFile file) w = (w.pathFor file, w.asked file) := by
  cases file with
  | some path => rfl
  | none => exact outcome_askForFile w

theorem outcome_checkFile (options : CheckOptions) (settings : Settings) (path : String)
    (w : World) :
    outcome (checkFile options settings path) w =
      match w.source path with
      | .error failure => (.error failure, w)
      | .ok source =>
        let report := check settings source
        (.ok (if options.denyErrors && report.hasErrors then .denied else .success),
          w.printed (renderReport report settings.format)) := by
  have hread := outcome_readSource path w
  cases hsource : w.source path with
  | error failure =>
    rw [hsource] at hread
    exact outcome_bind_error hread
  | ok source =>
    rw [hsource] at hread
    rw [checkFile, outcome_bind_ok hread]
    exact outcome_bind_ok (outcome_print _ w)

/-- What is asked for and what is answered changes nothing about the files. -/
theorem source_asked (w : World) (file : Option String) (path : String) :
    (w.asked file).source path = w.source path := by
  cases file <;> rfl

/-- The settings come first. A check that has them reads its file, and one that reads it
writes the report. -/
theorem outcome_runCheck (options : CheckOptions) (w : World) :
    outcome (runCheck options) w =
      match w.settingsFor options with
      | .error failure => (.error failure, w)
      | .ok settings =>
        match w.sourceFor options.file with
        | .error failure => (.error failure, w.asked options.file)
        | .ok source =>
          let report := check settings source
          (.ok (if options.denyErrors && report.hasErrors then .denied else .success),
            (w.asked options.file).printed (renderReport report settings.format)) := by
  have hsettings := outcome_checkSettings options w
  have hname := outcome_nameFile options.file w
  rw [runCheck_eq, World.sourceFor]
  cases hloaded : w.settingsFor options with
  | error failure =>
    rw [hloaded] at hsettings
    exact outcome_bind_error hsettings
  | ok settings =>
    rw [hloaded] at hsettings
    rw [outcome_bind_ok hsettings]
    cases hpath : w.pathFor options.file with
    | error failure =>
      rw [hpath] at hname
      exact outcome_bind_error hname
    | ok path =>
      rw [hpath] at hname
      rw [outcome_bind_ok hname, outcome_checkFile, source_asked]

/-! ## Runs of the program -/

/-- A settings file is refused if its own threshold is not valid. -/
theorem isValid_settingsIn {w : World} {path : String} {loaded : Settings}
    (h : w.settingsIn path = .ok loaded) : loaded.isValid = true := by
  unfold World.settingsIn at h
  cases htext : w.text path with
  | error fault =>
    rw [htext] at h
    cases h
  | ok text =>
    rw [htext] at h
    cases hsettings : Settings.ofText text with
    | error fault =>
      simp only [hsettings] at h
      cases h
    | ok settings =>
      simp only [hsettings] at h
      cases h
      exact (Settings.ofText_eq_ok.mp hsettings).2

theorem isValid_settings {w : World} {config : Option String} {loaded : Settings}
    (h : w.settings config = .ok loaded) : loaded.isValid = true := by
  cases config with
  | some path =>
    simp only [World.settings] at h
    split at h
    · exact isValid_settingsIn h
    · cases h
  | none =>
    simp only [World.settings] at h
    split at h
    · exact isValid_settingsIn h
    · cases h
      decide +kernel

/-- **The check command.** However arguments are read, if they stand for a check, the program does
what the options, the settings file and the source say: without valid settings it fails, and the
world stays as it is; a settings file has to be valid though an option goes before it. With valid
settings the name of the file is asked for if it is not given, and if the file can be read,
the report on it is written. The files and the environment stay as they are. -/
theorem check_is_pipeline {read? : List String → Option Command} {arguments : List String}
    {options : CheckOptions} (h : read? arguments = some (.check options)) (w : World) :
    (∀ loaded, w.settings options.config = .ok loaded → loaded.isValid = true) ∧
    outcome (runAs read? arguments) w =
      match w.settingsFor options with
      | .error failure => (.error failure, w)
      | .ok settings =>
        match w.sourceFor options.file with
        | .error failure => (.error failure, w.asked options.file)
        | .ok source =>
          let report := check settings source
          let text := match settings.format with
            | .text => report.toText
            | .json => report.toJsonText ++ "\n"
          (.ok (if options.denyErrors && report.hasErrors then .denied else .success),
            (w.asked options.file).printed text) := by
  refine ⟨fun loaded hloaded => isValid_settings hloaded, ?_⟩
  rw [outcome_runAs h, runCommand, outcome_runCheck]
  cases w.settingsFor options with
  | error failure => rfl
  | ok settings =>
    cases w.sourceFor options.file with
    | error failure => rfl
    | ok source => rfl

theorem eq_ok_of_toOption {ε α : Type} {x : Except ε α} {a : α} (h : x.toOption = some a) :
    x = .ok a := by
  cases x with
  | error e => cases h
  | ok b => exact congrArg Except.ok (Option.some.inj h)

/-- Settings in the home directory by which comments are skipped, a source in the working
directory, and its name on the input. -/
def atHome : World :=
  ⟨⟨⟨[(["home", ".luaparse", "config.json"], "\x7b\"lua_comments\": true\x7d".toUTF8),
      (["work", "x.lua"], "x = -- 1\n".toUTF8)], []⟩, ["work"]⟩,
    " x.lua\n".toUTF8.toList, [("HOME", "/home")], ""⟩

/-- The options of a check whose errors make the run fail. -/
def denying : CheckOptions := ⟨none, none, none, false, true, none⟩

/-- The settings are loaded, the file is asked for and read, and the report has an error. -/
theorem check_is_pipeline_atHome :
    command? ["check", "--deny-errors"] = some (.check denying) ∧
      outcome (run ["check", "--deny-errors"]) atHome =
        (.ok .denied, (atHome.asked none).printed
          "Errors found\nEOF: 'EOF' not expected. Name or '(' expected.\n") ∧
      (atHome.asked none).output = "Give filename:\n" := by
  have hcommand : command? ["check", "--deny-errors"] = some (.check denying) := by
    decide +kernel
  have hsettings : atHome.settingsFor denying = .ok ⟨0.65, true, .text⟩ :=
    eq_ok_of_toOption (by decide +kernel)
  have hsource : atHome.sourceFor denying.file = .ok "x = -- 1\n" :=
    eq_ok_of_toOption (by decide +kernel)
  have hreport : (check ⟨0.65, true, .text⟩ "x = -- 1\n").toText =
      "Errors found\nEOF: 'EOF' not expected. Name or '(' expected.\n" := by
    decide +kernel
  have herrors : (check ⟨0.65, true, .text⟩ "x = -- 1\n").hasErrors = true := by
    decide +kernel
  have hrun := (check_is_pipeline hcommand atHome).2
  simp only [hsettings, hsource, hreport, herrors] at hrun
  exact ⟨hcommand, hrun, rfl⟩

end LuaChecker.CommandLine

import LuaChecker.CommandLine.FileTree
import LuaChecker.CommandLine.Run

/-!
# Programs in a world

A program that runs on a tree of files leads from one world to another, with a value or a
failure. The lemmas here say to what the small programs lead: those that use the host once,
and those that load settings, which look at the world and leave it as it is.

* `outcome_bind`: one program after another; a failure ends both;
* `outcome_readText`, `outcome_print`: reading a file and writing to the output;
* `outcome_loadSettings`: what is loaded, in terms of the files and the environment.
-/

namespace LuaChecker.CommandLine

variable {α β : Type}

/-- What a program leads to in a world. -/
def outcome (p : Program (StateM World) α) (w : World) : Except Failure α × World :=
  StateT.run (ExceptT.run p) w

/-! ## Putting programs together -/

@[simp] theorem outcome_pure (a : α) (w : World) :
    outcome (pure a : Program (StateM World) α) w = (.ok a, w) := rfl

@[simp] theorem outcome_throw (failure : Failure) (w : World) :
    outcome (throw failure : Program (StateM World) α) w = (.error failure, w) := rfl

@[simp] theorem outcome_lift (act : StateM World α) (w : World) :
    outcome (liftM act : Program (StateM World) α) w = (.ok (act w).1, (act w).2) := rfl

theorem outcome_bind (p : Program (StateM World) α) (f : α → Program (StateM World) β)
    (w : World) :
    outcome (p >>= f) w =
      match outcome p w with
      | (.ok a, w') => outcome (f a) w'
      | (.error failure, w') => (.error failure, w') := by
  unfold outcome ExceptT.run StateT.run
  change (match p w with
    | (result, w') => ExceptT.bindCont f result w') = _
  rcases p w with ⟨result, w'⟩
  cases result with
  | ok a => rfl
  | error failure => rfl

/-- What follows a program that yields a value. -/
theorem outcome_bind_ok {p : Program (StateM World) α} {f : α → Program (StateM World) β}
    {w w' : World} {a : α} (h : outcome p w = (.ok a, w')) :
    outcome (p >>= f) w = outcome (f a) w' := by
  rw [outcome_bind, h]

/-- Nothing follows a program that fails. -/
theorem outcome_bind_error {p : Program (StateM World) α} {f : α → Program (StateM World) β}
    {w w' : World} {failure : Failure} (h : outcome p w = (.error failure, w')) :
    outcome (p >>= f) w = (.error failure, w') := by
  rw [outcome_bind, h]

/-! ## Using the world -/

namespace World

/-- The world after a text was written to the output. -/
def printed (w : World) (text : String) : World :=
  { w with output := w.output ++ text }

/-- Bytes as a text. -/
def textOf (bytes : ByteArray) : Except FileFault String :=
  match String.fromUTF8? bytes with
  | some text => .ok text
  | none => .error .notText

/-- The text in a file. -/
def text (w : World) (path : String) : Except FileFault String :=
  match w.tree.read path with
  | .ok bytes => textOf bytes
  | .error fault => .error fault

end World

theorem outcome_print (text : String) (w : World) :
    outcome (print text) w = (.ok (), w.printed text) := rfl

theorem outcome_decode (bytes : ByteArray) (w : World) :
    outcome (decode bytes) w = ((World.textOf bytes).mapError .file, w) := by
  unfold decode World.textOf
  cases String.fromUTF8? bytes with
  | some text => rfl
  | none => rfl

theorem outcome_orFail (failure : FileFault → Failure) (act : StateM World (Except FileFault α))
    (w : World) : outcome (orFail failure act) w = ((act w).1.mapError failure, (act w).2) := by
  unfold orFail
  rw [outcome_bind, outcome_lift]
  cases (act w).1 with
  | ok a => rfl
  | error fault => rfl

/-- A file is read; what is wrong with it is told by `failure`, if this takes what is no text
for a fault of the file. -/
theorem outcome_readText (path : String) {failure : FileFault → Failure}
    (hfailure : failure .notText = .file .notText) (w : World) :
    outcome (readText path failure) w = ((w.text path).mapError failure, w) := by
  have hread : outcome (orFail failure (Host.readFile path)) w =
      ((w.tree.read path).mapError failure, w) := outcome_orFail failure _ w
  unfold readText World.text
  cases hbytes : w.tree.read path with
  | error fault =>
    rw [hbytes] at hread
    rw [outcome_bind_error hread]
    rfl
  | ok bytes =>
    rw [hbytes] at hread
    rw [outcome_bind_ok hread, outcome_decode]
    simp only [World.textOf]
    cases String.fromUTF8? bytes with
    | some text => rfl
    | none =>
      change (Except.error (Failure.file .notText), w) = (Except.error (failure .notText), w)
      rw [hfailure]

/-- The program runs the command that its arguments stand for. -/
theorem outcome_runAs {read? : List String → Option Command} {arguments : List String}
    {command : Command} (h : read? arguments = some command) (w : World) :
    outcome (runAs read? arguments) w = outcome (runCommand command) w := by
  rw [runAs, h]

/-! ## Changing files -/

@[simp] theorem World.tree_withTree (w : World) (tree : Disk) : (w.withTree tree).tree = tree :=
  rfl

@[simp] theorem World.withTree_withTree (w : World) (made written : Disk) :
    (w.withTree made).withTree written = w.withTree written := rfl

theorem outcome_createParents (path : String) (w : World) :
    outcome (orFail .file (Host.createParents path)) w =
      ((w.tree.createParents path).1.mapError .file, w.withTree (w.tree.createParents path).2) :=
  outcome_orFail .file (Host.createParents path) w

theorem outcome_writeFile (path : String) (bytes : ByteArray) (w : World) :
    outcome (orFail .file (Host.writeFile path bytes)) w =
      match w.tree.write path bytes with
      | .ok written => (.ok (), w.withTree written)
      | .error fault => (.error (.file fault), w) := by
  have hwrite : (Host.writeFile path bytes : StateM World (Except FileFault Unit)) w =
      match w.tree.write path bytes with
      | .ok written => (.ok (), w.withTree written)
      | .error fault => (.error fault, w) := rfl
  rw [outcome_orFail, hwrite]
  cases w.tree.write path bytes <;> rfl

/-! ## Loading settings -/

namespace World

/-- The settings file that is used if none is named on the command line. -/
def configPath (w : World) : String :=
  (w.environment.lookup configVariable).getD
    (configBelow ((w.environment.lookup "HOME").getD "."))

/-- The settings in a file. -/
def settingsIn (w : World) (path : String) : Except Failure Settings :=
  match w.text path with
  | .ok text => (Settings.ofText text).mapError .settings
  | .error fault => .error (.file fault)

/-- The settings in the file that is named, which has to be there, or else in the one that is
used then, which may be missing. -/
def settings (w : World) : Option String → Except Failure Settings
  | some path =>
    if w.tree.contains path then w.settingsIn path else .error (.fileNotFound path)
  | none =>
    if w.tree.contains w.configPath then w.settingsIn w.configPath else .ok .default

end World

theorem outcome_defaultConfigPath (w : World) :
    outcome defaultConfigPath w = (.ok w.configPath, w) := by
  have hlook (name : String) :
      outcome (liftM (Host.getVariable (m := StateM World) name) : Program (StateM World) _) w =
        (.ok (w.environment.lookup name), w) := rfl
  unfold defaultConfigPath World.configPath
  rw [outcome_bind_ok (hlook _)]
  cases w.environment.lookup configVariable with
  | some path => rfl
  | none => rw [outcome_bind_ok (hlook _)]; rfl

theorem outcome_settingsIn (path : String) (w : World) :
    outcome (settingsIn path) w = (w.settingsIn path, w) := by
  have hread : outcome (readText path .file) w = ((w.text path).mapError .file, w) :=
    outcome_readText path rfl w
  unfold settingsIn World.settingsIn
  cases htext : w.text path with
  | error fault =>
    rw [htext] at hread
    exact outcome_bind_error hread
  | ok text =>
    rw [htext] at hread
    rw [outcome_bind_ok hread]
    simp only
    cases Settings.ofText text with
    | ok settings => rfl
    | error fault => rfl

theorem outcome_settingsInOr (path : String) (missing : Program (StateM World) Settings)
    (w : World) :
    outcome (settingsInOr path missing) w =
      if w.tree.contains path then (w.settingsIn path, w) else outcome missing w := by
  have hexists : outcome
      (liftM (Host.pathExists (m := StateM World) path) : Program (StateM World) Bool) w =
        (.ok (w.tree.contains path), w) := rfl
  unfold settingsInOr
  rw [outcome_bind_ok hexists]
  cases w.tree.contains path with
  | true => exact outcome_settingsIn path w
  | false => rfl

/-- Settings are loaded from the files and the environment, which stay as they are. -/
theorem outcome_loadSettings (config : Option String) (w : World) :
    outcome (loadSettings config) w = (w.settings config, w) := by
  cases config with
  | some path =>
    rw [loadSettings, outcome_settingsInOr, World.settings]
    split <;> rfl
  | none =>
    rw [loadSettings, outcome_bind_ok (outcome_defaultConfigPath w), outcome_settingsInOr,
      World.settings]
    split <;> rfl

end LuaChecker.CommandLine

import LuaChecker.Check
import LuaChecker.CommandLine.Arguments
import LuaChecker.CommandLine.Host
import LuaChecker.CommandLine.Path
import LuaChecker.Text.Blank

/-!
# Running a command

A check goes through fixed stages: the settings are loaded, the options of the command line
override them, the result is validated, the file is named, read and checked, and the report
is written. Each stage may fail, and then nothing of the later ones happens.
-/

namespace LuaChecker.CommandLine

/-- How a run ends that does not fail. -/
inductive ExitStatus
  | success
  /-- Errors were found and denied. -/
  | denied
  deriving DecidableEq, Repr

/-- What a program does on a host. -/
abbrev Program (m : Type → Type) (α : Type) : Type :=
  ExceptT Failure m α

variable {m : Type → Type} [Monad m] [Host m]

/-! ## Using the host -/

/-- Takes a fault for a failure. -/
def orFail {α : Type} (failure : FileFault → Failure) (act : m (Except FileFault α)) :
    Program m α := do
  match ← liftM (n := Program m) act with
  | .ok a => return a
  | .error fault => throw (failure fault)

def decode (bytes : ByteArray) : Program m String :=
  match String.fromUTF8? bytes with
  | some text => return text
  | none => throw (.file .notText)

def print (text : String) : Program m Unit :=
  liftM (Host.print (m := m) text)

def readText (path : String) (failure : FileFault → Failure) : Program m String := do
  let bytes ← orFail failure (Host.readFile path)
  decode bytes

/-! ## Settings -/

/-- The variable that names the settings file. -/
def configVariable : String := "LUAPARSE_CONFIG"

/-- The settings file below a home directory. -/
def configBelow (home : String) : String :=
  joinPath (joinPath home ".luaparse") "config.json"

/-- The settings file that is used if none is named on the command line. -/
def defaultConfigPath : Program m String := do
  match ← liftM (Host.getVariable (m := m) configVariable) with
  | some path => return path
  | none =>
    let home ← liftM (Host.getVariable (m := m) "HOME")
    return configBelow (home.getD ".")

def settingsIn (path : String) : Program m Settings := do
  let text ← readText path .file
  match Settings.ofText text with
  | .ok settings => return settings
  | .error fault => throw (.settings fault)

/-- The settings in a file that may be missing, and then the given ones. -/
def settingsInOr (path : String) (missing : Program m Settings) : Program m Settings := do
  if ← liftM (Host.pathExists (m := m) path) then
    settingsIn path
  else
    missing

/-- The settings in the file that is named, which has to be there, or in the default file,
which may be missing. -/
def loadSettings : Option String → Program m Settings
  | some path => settingsInOr path (throw (.fileNotFound path))
  | none => do
    let path ← defaultConfigPath
    settingsInOr path (return Settings.default)

/-- Writes a settings file, with the directories that it needs. -/
def saveSettings (settings : Settings) (path : String) : Program m Unit := do
  orFail .file (Host.createParents path)
  orFail .file (Host.writeFile path settings.toText.toUTF8)

/-! ## Checking -/

/-- The settings as the options of a check change them. -/
def CheckOptions.override (options : CheckOptions) (settings : Settings) : Settings :=
  ⟨options.threshold.getD settings.threshold, settings.comments || options.comments,
    options.format.getD settings.format⟩

def readSource (path : String) : Program m String :=
  readText path fun
    | .notFound => .fileNotFound path
    | fault => .file fault

def askForFile : Program m String := do
  print "Give filename:\n"
  let line ← orFail .file (Host.readLine (m := m))
  let text ← decode line
  return String.ofList (Text.trim text.toList)

/-- A report in a format, with a line end behind it. -/
def renderReport (report : Report) : Format → String
  | .text => report.toText
  | .json => report.toJsonText ++ "\n"

def checkSettings (options : CheckOptions) : Program m Settings := do
  let loaded ← loadSettings options.config
  match (options.override loaded).validate with
  | .ok settings => return settings
  | .error fault => throw (.settings fault)

def runCheck (options : CheckOptions) : Program m ExitStatus := do
  let settings ← checkSettings options
  let path ← match options.file with
    | some path => pure path
    | none => askForFile
  let source ← readSource path
  let report := check settings source
  print (renderReport report settings.format)
  return if options.denyErrors && report.hasErrors then .denied else .success

/-! ## Listing tokens -/

/-- A token in a listing. -/
def tokenLine (t : Token) : String :=
  toString t.line ++ " " ++ toString t.position ++ ".." ++ toString (t.position + t.width) ++
    " " ++ t.kind.label ++ " " ++ t.text

/-- The listing of a source text: its tokens, then its diagnostics. -/
def listing (comments : Bool) (source : String) : String :=
  let lexed := lex comments source.toList
  Report.ofLines (lexed.tokens.map tokenLine ++ lexed.diagnostics.map Diagnostic.render)

def runTokens (path : String) (comments : Bool) : Program m ExitStatus := do
  let source ← readSource path
  print (listing comments source)
  return .success

/-! ## Managing settings -/

/-- Shows, creates or names a settings file. -/
def runConfig (path : String) : ConfigAction → Program m ExitStatus
  | .show => do
    let settings ← settingsInOr path (return Settings.default)
    print (settings.toText ++ "\n")
    return .success
  | .init => do
    if ← liftM (Host.pathExists (m := m) path) then
      print ("Config file already exists at: " ++ path ++ "\nRemove it to reinitialize.\n")
    else
      saveSettings Settings.default path
      print ("Initialized new config file at: " ++ path ++ "\n")
    return .success
  | .path => do
    print (path ++ "\n")
    return .success

def runCommand : Command → Program m ExitStatus
  | .check options => runCheck options
  | .tokens path comments => runTokens path comments
  | .config (some path) action => runConfig path action
  | .config none action => do
    let path ← defaultConfigPath
    runConfig path action

/-- Runs the command that the arguments stand for, as they are read by `read?`. -/
def runAs (read? : List String → Option Command) (arguments : List String) :
    Program m ExitStatus :=
  match read? arguments with
  | some command => runCommand command
  | none => throw .usage

def run (arguments : List String) : Program m ExitStatus :=
  runAs command? arguments

end LuaChecker.CommandLine

import LuaChecker.Settings.File

/-!
# What the program runs on

A host has files, an input, an output and an environment. The program is written for any
host, so that it can be run on the files of a computer and on a tree of files that is only
described.
-/

namespace LuaChecker.CommandLine

/-- Why a file cannot be used. -/
inductive FileFault
  | notFound
  | alreadyExists
  | notDirectory
  | isDirectory
  /-- The path has a null character in it. -/
  | nullCharacter
  /-- The bytes are no UTF-8 text. -/
  | notText
  | other (message : String)
  deriving DecidableEq, Repr

def FileFault.message : FileFault → String
  | .notFound => "No such file or directory (os error 2)"
  | .alreadyExists => "File exists (os error 17)"
  | .notDirectory => "Not a directory (os error 20)"
  | .isDirectory => "Is a directory (os error 21)"
  | .nullCharacter => "file name contained an unexpected NUL byte"
  | .notText => "stream did not contain valid UTF-8"
  | .other message => message

inductive Failure
  /-- The arguments stand for no command. -/
  | usage
  | fileNotFound (path : String)
  | file (fault : FileFault)
  | settings (fault : Settings.Fault)

def Failure.message : Failure → String
  | .usage => "usage: check [FILE] | tokens FILE | config show | config init | config path"
  | .fileNotFound path => "File does not exist: " ++ path
  | .file fault => "IOError: " ++ fault.message
  | .settings .shape => "JsonError: not a settings file"
  | .settings (.threshold found) => "ConfigError: " ++ Settings.thresholdMessage found

/-- What a program can do on a host. -/
class Host (m : Type → Type) where
  readFile : String → m (Except FileFault ByteArray)
  pathExists : String → m Bool
  /-- Creates the directories that a path goes through, as far as they are missing. Those that
  are created stay if a later one cannot be created. -/
  createParents : String → m (Except FileFault Unit)
  writeFile : String → ByteArray → m (Except FileFault Unit)
  /-- The next line of the input, with its line end. -/
  readLine : m (Except FileFault ByteArray)
  print : String → m Unit
  getVariable : String → m (Option String)

end LuaChecker.CommandLine

import LuaChecker.CommandLine.Run

/-!
# The program

The command line on the files, the standard streams and the environment of the computer.
-/

namespace LuaChecker.CommandLine

/-- The number and the text of an error of the operating system. -/
def systemError : IO.Error → Option (UInt32 × String)
  | .noFileOrDirectory _ code details => some (code, details)
  | .alreadyExists _ code details => some (code, details)
  | .inappropriateType _ code details => some (code, details)
  | .permissionDenied _ code details => some (code, details)
  | .invalidArgument _ code details => some (code, details)
  | .otherError code details => some (code, details)
  | _ => none

/-- The number of an error, which some actions give with the opposite sign. -/
def errorNumber (code : UInt32) : UInt32 :=
  if 0x7fffffff < code then 0 - code else code

/-- The fault that an error of the operating system stands for. -/
def faultOf (e : IO.Error) : FileFault :=
  match systemError e with
  | none => .other (toString e)
  | some (code, details) =>
    match errorNumber code with
    | 2 => .notFound
    | 17 => .alreadyExists
    | 20 => .notDirectory
    | 21 => .isDirectory
    | number => .other (details ++ " (os error " ++ toString number ++ ")")

/-- The outcome of an action that uses files. -/
def attempt {α : Type} (act : IO α) : IO (Except FileFault α) := do
  match ← act.toBaseIO with
  | .ok a => return .ok a
  | .error e => return .error (faultOf e)

/-- The outcome of an action on a file, if it has a path. -/
def attemptOn {α : Type} (path : String) (act : IO α) : IO (Except FileFault α) :=
  if hasNull path then return .error .nullCharacter else attempt act

/-- The directory that a path ends in. -/
def parentPath (path : String) : String :=
  pathOf (namesOf path).dropLast

def isPresent (path : String) : IO Bool := do
  match ← attemptOn path (IO.FS.Handle.mk path .read) with
  | .error .notFound => return false
  | .error .notDirectory => return false
  | .error .nullCharacter => return false
  | _ => return true

/-- Creates a directory that may be there already. -/
def createDirectory (path : String) : IO (Except FileFault Unit) := do
  match ← attemptOn path (IO.FS.createDir path) with
  | .error fault => return if ← isPresent (path ++ "/.") then .ok () else .error fault
  | .ok _ => return .ok ()

/-- Creates a directory that may be there already, and those above it that are missing. -/
partial def createDirectories (path : String) : IO (Except FileFault Unit) := do
  if path.isEmpty then
    return .ok ()
  match ← createDirectory path with
  | .error .notFound =>
    match ← createDirectories (parentPath path) with
    | .ok _ => createDirectory path
    | .error fault => return .error fault
  | result => return result

/-- The bytes of a handle up to and with the next line end. -/
partial def readLineBytes (input : IO.FS.Stream) (acc : ByteArray) : IO ByteArray := do
  let next ← input.read 1
  if next.isEmpty then
    return acc
  else if next.toList = [10] then
    return acc ++ next
  else
    readLineBytes input (acc ++ next)

instance : Host IO where
  readFile path := attemptOn path (IO.FS.readBinFile path)
  pathExists path := isPresent path
  createParents path := createDirectories (parentPath path)
  writeFile path bytes := attemptOn path (IO.FS.writeBinFile path bytes)
  readLine := do
    let input ← IO.getStdin
    attempt (readLineBytes input ByteArray.empty)
  print text := do
    IO.print text
    (← IO.getStdout).flush
  getVariable name := IO.getEnv name

end LuaChecker.CommandLine

open LuaChecker.CommandLine

/-- The program. A run that fails says so on the error stream; its status is 2 if the arguments
stand for no command. -/
def main (arguments : List String) : IO UInt32 := do
  let program : Program IO ExitStatus := run arguments
  match ← program.run with
  | .ok .success => return 0
  | .ok .denied => return 1
  | .error failure =>
    IO.eprintln failure.message
    return match failure with
      | .usage => 2
      | _ => 1

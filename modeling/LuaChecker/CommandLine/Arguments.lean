import LuaChecker.Decimal.Reading
import LuaChecker.Settings.Basic

/-!
# Command lines

The commands of the program and the arguments that stand for them. Options have long names;
a value follows its option as an argument of its own or behind an equals sign. Options may
stand before and after the file; `--` ends them. An argument that starts with a dash is no
value and no file, unless it is a dash alone or stands behind `--`.
-/

namespace LuaChecker.CommandLine

structure CheckOptions where
  file : Option String
  format : Option Format
  threshold : Option Float
  comments : Bool
  /-- Whether a report with errors makes the run fail. -/
  denyErrors : Bool
  /-- The settings file to be used. -/
  config : Option String
  deriving DecidableEq

/-- What is done with the settings. -/
inductive ConfigAction
  | show
  | init
  | path
  deriving DecidableEq, Repr

inductive Command
  | check (options : CheckOptions)
  | tokens (file : String) (comments : Bool)
  | config (file : Option String) (action : ConfigAction)
  deriving DecidableEq

/-! ## The form of arguments -/

inductive Argument
  | option (name : String) (value : Option String)
  | operand (text : String)
  /-- Two dashes, which end the options. -/
  | separator
  deriving DecidableEq, Repr

/-- Whether an argument has the form of an option. -/
def looksLikeOption (text : String) : Bool :=
  match text.toList with
  | '-' :: _ :: _ => true
  | _ => false

/-- The name of an option and the value behind its equals sign, if it has one. -/
def splitOption (text : List Char) : String × Option String :=
  (String.ofList (text.takeWhile (· ≠ '=')),
    match text.dropWhile (· ≠ '=') with
    | _ :: value => some (String.ofList value)
    | [] => none)

/-- Reads an option that is known, with its value; the number is that of the arguments used
behind it. -/
def readOption? (takesValue : String → Option Bool) (name : String) (attached : Option String)
    (rest : List String) : Option (Argument × Nat) :=
  match takesValue name, attached with
  | some false, none => some (.option name none, 0)
  | some true, some value => some (.option name (some value), 0)
  | some true, none =>
    match rest with
    | value :: _ =>
      if looksLikeOption value then none else some (.option name (some value), 1)
    | [] => none
  | _, _ => none

/-- Reads one argument; the number is that of the arguments used behind it. `takesValue`
tells the options that have a value from those that have none. -/
def readArgument? (takesValue : String → Option Bool) (text : String) (rest : List String) :
    Option (Argument × Nat) :=
  if text = "--" then some (.separator, 0)
  else
    match text.toList with
    | '-' :: '-' :: name =>
      let (name, attached) := splitOption name
      readOption? takesValue name attached rest
    | _ => if looksLikeOption text then none else some (.operand text, 0)

def readArguments? (takesValue : String → Option Bool) : List String → Option (List Argument)
  | [] => some []
  | text :: rest =>
    match readArgument? takesValue text rest with
    | some (.separator, _) => some (rest.map .operand)
    | some (argument, used) => (readArguments? takesValue (rest.drop used)).map (argument :: ·)
    | none => none
  termination_by arguments => arguments.length
  decreasing_by simp only [List.length_drop, List.length_cons]; omega

/-! ## The meaning of arguments -/

/-- What is given at most once. -/
def atMostOnce? {α : Type} : List α → Option (Option α)
  | [] => some none
  | [a] => some (some a)
  | _ => none

/-- Reads what is given, if anything is. -/
def readGiven? {α β : Type} (read? : α → Option β) : Option α → Option (Option β)
  | some a => (read? a).map some
  | none => some none

def valuesOf (name : String) (arguments : List Argument) : List String :=
  arguments.filterMap fun
    | .option other (some value) => if other = name then some value else none
    | _ => none

/-- The value of an option that is given at most once. -/
def valueOf? {α : Type} (read? : String → Option α) (name : String) (arguments : List Argument) :
    Option (Option α) :=
  (atMostOnce? (valuesOf name arguments)).bind (readGiven? read?)

/-- Whether an option without a value is given, at most once. -/
def flag? (name : String) (arguments : List Argument) : Option Bool :=
  (atMostOnce? (arguments.filter (· = .option name none))).map Option.isSome

def operands (arguments : List Argument) : List String :=
  arguments.filterMap fun
    | .operand text => some text
    | _ => none

/-- A file name. It is not empty. -/
def fileName? (text : String) : Option String :=
  if text.isEmpty then none else some text

def file? (arguments : List Argument) : Option (Option String) :=
  (atMostOnce? (operands arguments)).bind (readGiven? fileName?)

/-- The options of a check that have a value, and those that have none. -/
def checkTakesValue (name : String) : Option Bool :=
  if ["format", "threshold", "config"].contains name then some true
  else if ["comments", "deny-errors"].contains name then some false
  else none

/-- The options that the arguments of a check stand for. -/
def checkOptions? (arguments : List String) : Option CheckOptions := do
  let arguments ← readArguments? checkTakesValue arguments
  let file ← file? arguments
  let format ← valueOf? Format.ofLabel? "format" arguments
  let threshold ← valueOf? (fun text => Decimal.readFloat? text.toList) "threshold" arguments
  let comments ← flag? "comments" arguments
  let denyErrors ← flag? "deny-errors" arguments
  let config ← valueOf? fileName? "config" arguments
  return ⟨file, format, threshold, comments, denyErrors, config⟩

/-- The command that the arguments behind `tokens` stand for. -/
def tokensCommand? (arguments : List String) : Option Command := do
  let arguments ← readArguments? (fun name => if name = "comments" then some false else none)
    arguments
  let file ← file? arguments
  let comments ← flag? "comments" arguments
  return .tokens (← file) comments

def configAction? (name : String) : Option ConfigAction :=
  if name = "show" then some .show
  else if name = "init" then some .init
  else if name = "path" then some .path
  else none

/-- The command that the arguments behind `config` stand for: at most one option, which
names the file, and then the action. -/
def configCommand? (file : Option String) : List String → Option Command
  | [] => none
  | text :: rest =>
    match readArgument? (fun name => if name = "config" then some true else none) text rest with
    | some (.option _ (some value), used) =>
      if file.isSome || value.isEmpty then none
      else configCommand? (some value) (rest.drop used)
    | some (.operand name, _) =>
      if rest = [] ∨ rest = ["--"] then (configAction? name).map (.config file) else none
    | _ => none
  termination_by arguments => arguments.length
  decreasing_by simp only [List.length_drop, List.length_cons]; omega

/-- The command that the arguments of the program stand for. -/
def command? : List String → Option Command
  | "check" :: arguments => (checkOptions? arguments).map .check
  | "tokens" :: arguments => tokensCommand? arguments
  | "config" :: arguments => configCommand? none arguments
  | _ => none

end LuaChecker.CommandLine

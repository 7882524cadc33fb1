import LuaChecker.CommandLine.Host
import LuaChecker.CommandLine.Path

/-!
# Trees of files

A tree of files is a host that is only described: its files and directories from the root on,
the directory in which a program works, an input, an environment, and what was written to the
output. Paths are followed name by name, from the root if they are absolute, and from the working
directory otherwise. A path may only go through directories. Two dots lead to the directory above,
and from the root to the root.
-/

namespace LuaChecker.CommandLine

inductive Node
  | file (bytes : ByteArray)
  | directory

/-- The files and directories below a place. A directory is there as well if anything is below
it. -/
structure FileTree where
  files : List (Names × ByteArray)
  directories : List Names

namespace FileTree

/-- Whether a place is above another one, or the same. -/
def isAbove (place other : Names) : Bool :=
  place.isPrefixOf other

def node? (t : FileTree) (place : Names) : Option Node :=
  match t.files.lookup place with
  | some bytes => some (.file bytes)
  | none =>
    if place.isEmpty || t.files.any (fun f => isAbove place f.1) ||
        t.directories.any (isAbove place) then some .directory
    else none

def isDirectory (t : FileTree) (place : Names) : Bool :=
  match t.node? place with
  | some .directory => true
  | _ => false

/-- The place one name further. -/
def enter (place : Names) (name : String) : Names :=
  if name = "" ∨ name = "." then place
  else if name = ".." then place.dropLast
  else place ++ [name]

/-- Follows names through directories to the place that they lead to, where something may be
or not. -/
def follow (t : FileTree) (place : Names) : Names → Except FileFault Names
  | [] => .ok place
  | name :: names =>
    match t.node? place with
    | some .directory => t.follow (enter place name) names
    | some (.file _) => .error .notDirectory
    | none => .error .notFound

def put (t : FileTree) (place : Names) (bytes : ByteArray) : FileTree :=
  ⟨(place, bytes) :: t.files.filter (·.1 ≠ place), t.directories⟩

/-- Writes the file with this name in the directory at a place. -/
def writeIn (t : FileTree) (place : Names) (name : String) (bytes : ByteArray) :
    Except FileFault FileTree :=
  match t.node? (place ++ [name]) with
  | some .directory => .error .isDirectory
  | _ => .ok (t.put (place ++ [name]) bytes)

/-- Creates directories on the way along names, as far as they are missing. Behind the first
one that was missing they are created one by one, so that a file in the way stands where a
directory is to be created. Those that are created stay, also if there is no way on. -/
def createAlong (t : FileTree) (created : Bool) (place : Names) :
    Names → Except FileFault Unit × FileTree
  | [] => (.ok (), t)
  | name :: names =>
    let next := enter place name
    match t.node? next with
    | some .directory => t.createAlong created next names
    | some (.file _) =>
      (.error (if names.isEmpty || created then .alreadyExists else .notDirectory), t)
    | none =>
      if t.isDirectory place then createAlong ⟨t.files, next :: t.directories⟩ true next names
      else (.error .notFound, t)

end FileTree

/-- The files of a host, by their places below the root, and the place of the directory in which
a program works. -/
structure Disk extends FileTree where
  workingDirectory : Names

namespace Disk

/-- A disk with this tree as its working directory, and nothing else. -/
def ofTree (t : FileTree) : Disk :=
  ⟨⟨t.files.map fun f => ("work" :: f.1, f.2), t.directories.map ("work" :: ·) ++ [["work"]]⟩,
    ["work"]⟩

/-- The tree in the working directory. -/
def working (d : Disk) : FileTree :=
  ⟨d.files.filterMap fun f => (d.workingDirectory.isPrefixOf? f.1).map (·, f.2),
    d.directories.filterMap d.workingDirectory.isPrefixOf?⟩

/-- The files of a tree are those in the working directory that it is taken for. -/
theorem files_working_ofTree (t : FileTree) : (ofTree t).working.files = t.files := by
  have hsame (f : Names × ByteArray) :
      (["work"].isPrefixOf? ("work" :: f.1)).map (·, f.2) = some f := rfl
  simp only [working, ofTree, List.filterMap_map, Function.comp_def, hsame, List.filterMap_some]

-- Where only the working directory matters, its tree stands for the disk.
instance : Coe FileTree Disk := ⟨ofTree⟩

instance : Coe Disk FileTree := ⟨working⟩

/-! ## Where paths lead -/

/-- The place from which a path is followed. -/
def origin (d : Disk) (path : String) : Names :=
  if isAbsolute path then [] else d.workingDirectory

/-- Refuses what is no path: a text that is empty or has a null character. -/
def refuse (path : String) : Option FileFault :=
  if path = "" then some .notFound
  else if hasNull path then some .nullCharacter
  else none

def resolve (d : Disk) (path : String) : Except FileFault Names :=
  match refuse path with
  | some fault => .error fault
  | none => d.follow (d.origin path) (namesOf path)

def read (d : Disk) (path : String) : Except FileFault ByteArray :=
  match d.resolve path with
  | .error fault => .error fault
  | .ok place =>
    match d.node? place with
    | some (.file bytes) => .ok bytes
    | some .directory => .error .isDirectory
    | none => .error .notFound

def contains (d : Disk) (path : String) : Bool :=
  match d.resolve path with
  | .ok place => (d.node? place).isSome
  | .error _ => false

/-! ## Changes -/

/-- Whether a path can only lead to a directory: it ends in a slash, in the place itself or
in the place above. -/
def leadsToDirectory (path : String) : Bool :=
  ["", ".", ".."].contains ((namesOf path).getLastD "")

/-- The names in a path, without the empty ones at its end. -/
def trimmedNames (path : String) : Names :=
  ((namesOf path).reverse.dropWhile (· = "")).reverse

/-- Writes a file in the directory at a place, if the path leads to no directory. -/
def writeAt (d : Disk) (place : Names) (path : String) (bytes : ByteArray) :
    Except FileFault Disk :=
  match d.node? place with
  | none => .error .notFound
  | some (.file _) => .error .notDirectory
  | some .directory =>
    if leadsToDirectory path then .error .isDirectory
    else (d.writeIn place ((trimmedNames path).getLastD "") bytes).map (⟨·, d.workingDirectory⟩)

def write (d : Disk) (path : String) (bytes : ByteArray) : Except FileFault Disk :=
  match refuse path with
  | some fault => .error fault
  | none =>
    match d.follow (d.origin path) (trimmedNames path).dropLast with
    | .error fault => .error fault
    | .ok place => d.writeAt place path bytes

/-- The names in a path that are not idle. -/
def properNames (path : String) : Names :=
  (namesOf path).filter fun name => name ≠ "" ∧ name ≠ "."

/-- Creates the directories that a path goes through. -/
def createParents (d : Disk) (path : String) : Except FileFault Unit × Disk :=
  let parents := (properNames path).dropLast
  if parents.any hasNull then (.error .nullCharacter, d)
  else
    let (result, tree) := d.createAlong false (d.origin path) parents
    (result, ⟨tree, d.workingDirectory⟩)

end Disk

/-- A host that is only described. -/
structure World where
  tree : Disk
  /-- What the input still holds. -/
  input : List UInt8
  environment : List (String × String)
  /-- What was written to the output. -/
  output : String

namespace World

/-- The first line of the input, with its line end, and what it leaves. -/
def splitLine (input : List UInt8) : List UInt8 × List UInt8 :=
  let line := input.takeWhile (· ≠ 10)
  (line ++ (input.drop line.length).take 1, input.drop (line.length + 1))

/-- The world with another tree. -/
def withTree (w : World) (tree : Disk) : World := { w with tree := tree }

end World

instance : Host (StateM World) where
  readFile path := fun w => (w.tree.read path, w)
  pathExists path := fun w => (w.tree.contains path, w)
  createParents path := fun w =>
    let (result, tree) := w.tree.createParents path
    (result, w.withTree tree)
  writeFile path bytes := fun w =>
    match w.tree.write path bytes with
    | .ok tree => (.ok (), w.withTree tree)
    | .error fault => (.error fault, w)
  readLine := fun w =>
    let (line, rest) := World.splitLine w.input
    (.ok ⟨line.toArray⟩, { w with input := rest })
  print text := fun w => ((), { w with output := w.output ++ text })
  getVariable name := fun w => (w.environment.lookup name, w)

end LuaChecker.CommandLine

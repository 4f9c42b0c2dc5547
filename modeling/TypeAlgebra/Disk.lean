import TypeAlgebra.Text.Cut

namespace TypeAlgebra

inductive ReadFailure where
  | missing
  | notFolder
  | isFolder
  | nameTooLong
  | unusablePath

namespace ReadFailure

def reason : ReadFailure → String
  | missing => "no such file or directory"
  | notFolder => "not a directory"
  | isFolder => "is a directory"
  | nameTooLong => "file name too long"
  | unusablePath => "invalid argument"

/-- What fails: a folder can be opened, but not read. -/
def action : ReadFailure → String
  | isFolder => "read"
  | _ => "open"

def message (failure : ReadFailure) (path : String) : String :=
  failure.action ++ " " ++ path ++ ": " ++ failure.reason

end ReadFailure

/-- The names that lead from the root to a place. -/
abbrev Location := List String

inductive Place where
  | folder
  | file (content : String)

structure Disk where
  home : Location
  files : List (Location × String)

namespace Disk

def nameLimit : Nat :=
  255

def pathLimit : Nat :=
  4095

def ofFiles (files : List (String × String)) : Disk :=
  let home := ["tmp", "work"]
  { home
    files := (["dev", "null"], "") :: files.map fun (path, content) ↦
      (home ++ (Text.split '/' path).filter (fun name ↦ name ≠ "" ∧ name ≠ "."), content) }

/-- A folder holds the working folder or a file, or is the working folder. -/
def hasFolder (disk : Disk) (location : Location) : Bool :=
  location.isPrefixOf disk.home || disk.files.any fun (names, _) ↦ location.isPrefixOf names

def place? (disk : Disk) (location : Location) : Option Place :=
  match disk.files.lookup location with
  | some content => some (.file content)
  | none => if disk.hasFolder location then some .folder else none

/-- Looks up a name in the folder at `location`. The folder above the root is the root. -/
def enter (disk : Disk) (location : Location) (name : String) : Except ReadFailure Location :=
  match disk.place? location with
  | none => .error .missing
  | some (.file _) => .error .notFolder
  | some .folder =>
    if name = "" ∨ name = "." then .ok location
    else if name = ".." then .ok location.dropLast
    else if nameLimit < name.utf8ByteSize then .error .nameTooLong
    else .ok (location ++ [name])

def origin (disk : Disk) (path : String) : Location :=
  if path.toList.head? = some '/' then [] else disk.home

def follow (disk : Disk) (path : String) : Except ReadFailure Location :=
  (Text.split '/' path).foldlM disk.enter (disk.origin path)

/-- The text of the file at `path`. Each name on the way to it is looked up in the folder reached so far. -/
def read (disk : Disk) (path : String) : Except ReadFailure String :=
  if path.toList.contains '\x00' then .error .unusablePath
  else if path.isEmpty then .error .missing
  else if pathLimit < path.utf8ByteSize then .error .nameTooLong
  else do
    match disk.place? (← disk.follow path) with
    | some (.file content) => .ok content
    | some .folder => .error .isFolder
    | none => .error .missing

end Disk

end TypeAlgebra

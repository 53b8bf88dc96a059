import ComponentTemplate.CommandLine.Files

/-!
# Directories

A file system that holds the files of one directory and nothing else. Commands are run in this
directory, which has a fixed place below the root.
-/

namespace ComponentTemplate

/-- **A directory**: files by their relative paths, with their contents. -/
abbrev Directory := List (String × String)

/-- The path of what is found by names below a path. -/
def joinPath (base : String) (names : List String) : String :=
  let separator := if base.toList.getLast? = some '/' then "" else "/"
  base ++ separator ++ "/".intercalate names

/-- Whether a name is longer than the names of files can be. -/
def isTooLong (name : String) : Bool :=
  255 < name.utf8ByteSize

namespace Directory

/-- The names that lead from the root to the directory. -/
def location : List String :=
  ["work"]

/-- The names that lead from the root to a file of the directory. -/
def namesOf (path : String) : List String :=
  location ++ pathNames path

/-- The content of the file that names lead to. -/
def file? (directory : Directory) (names : List String) : Option String :=
  (directory.find? fun (path, _) => namesOf path = names).map Prod.snd

/-- Whether names lead to something that is above a file. -/
def isAbove (names : List String) (path : String) : Bool :=
  names.isPrefixOf (namesOf path) && names.length < (namesOf path).length

/-- Whether names lead to a directory: this one, one above it, or one with a file below it. -/
def isDirectory (directory : Directory) (names : List String) : Bool :=
  names.isPrefixOf location || directory.any fun (path, _) => isAbove names path

/-- One step along a path, from names that have to lead to a directory. -/
def step (directory : Directory) (names : List String) (name : String) :
    Except AccessFailure (List String) :=
  if directory.isDirectory names then
    match name with
    | "" | "." => .ok names
    -- the root is above itself
    | ".." => .ok names.dropLast
    | name => if isTooLong name then .error .nameTooLong else .ok (names ++ [name])
  else if (directory.file? names).isSome then .error .notADirectory
  else .error .missing

/-- **The names that a path leads to**, whether something is there or not. Absolute paths start at
the root. -/
def resolve (directory : Directory) (path : String) : Except AccessFailure (List String) :=
  if 4095 < path.utf8ByteSize then .error .nameTooLong
  else
    let start := if path.toList.head? = some '/' then [] else location
    (pathNames path).foldlM directory.step start

/-- **The content of the file that a path leads to.** -/
def read (directory : Directory) (path : String) : Except AccessFailure String := do
  let names ← directory.resolve path
  if directory.isDirectory names then throw .isADirectory
  match directory.file? names with
  | some content => return content
  | none => throw .missing

/-- The paths of all files below the directory that a path leads to. -/
def walk (directory : Directory) (path : String) : List String :=
  match directory.resolve path with
  | .ok names =>
    (directory.filter fun (file, _) => isAbove names file).map fun (file, _) =>
      joinPath path ((namesOf file).drop names.length)
  | .error _ => []

/-- **Replace the content of the file** that a path leads to. -/
def write (directory : Directory) (path content : String) : Directory :=
  match directory.resolve path with
  | .ok names =>
    directory.map fun (file, old) => (file, if namesOf file = names then content else old)
  | .error _ => directory

/-- Reading and writing the files of a directory. -/
def access : FileAccess (StateM Directory) where
  read path := do return (← get).read path
  write path content := do
    modify (·.write path content)
    return .ok ()

/-- **A directory as a file system**, in which tasks are carried out one after another. -/
def system : FileSystem (StateM Directory) where
  toFileAccess := access
  isFile path := do return ((← get).read path).isOk
  walk path := do return (← get).walk path
  carryOut := access.inOrder

end Directory

end ComponentTemplate

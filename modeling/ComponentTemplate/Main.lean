import ComponentTemplate.CommandLine.Run

/-!
# The program

Runs a command line on real files, prints what its report says, and exits with its status.
-/

open ComponentTemplate

/-- Why an operation on files failed, as far as the program tells failures apart. -/
def accessFailure : IO.Error → AccessFailure
  | .permissionDenied .. => .denied
  | .inappropriateType .. => .isADirectory
  | .invalidArgument .. => .nameTooLong
  | _ => .missing

/-- A path, as an entry of no directory. -/
def entryOf (path : String) : IO.FS.DirEntry :=
  ⟨path, "."⟩

/-- The paths that a walk from a path comes to, itself first. Links are not followed. -/
partial def pathsFrom (base : String) : IO (List String) := do
  let mut found := [base]
  try
    if (← (entryOf base).path.symlinkMetadata).type == .dir then
      for entry in (← (entryOf base).path.readDir) do
        found := found ++ (← pathsFrom (joinPath base [entry.fileName]))
  catch _ => return found
  return found

/-- Reading and writing files. -/
def fileAccess : FileAccess IO where
  read path := do
    if ← (entryOf path).path.isDir then return .error .isADirectory
    try
      let bytes ← IO.FS.readBinFile path
      return match String.fromUTF8? bytes with
        | some content => .ok content
        | none => .error .notText
    catch failure => return .error (accessFailure failure)
  write path content := do
    try
      IO.FS.writeFile path content
      return .ok ()
    catch failure => return .error (accessFailure failure)

/-- The files of the machine. Tasks are carried out one after another. -/
def fileSystem : FileSystem IO where
  toFileAccess := fileAccess
  isFile path := do
    try
      return (← (entryOf path).path.metadata).type == .file
    catch _ => return false
  walk := pathsFrom
  carryOut := fileAccess.inOrder

def main (input : List String) : IO UInt32 := do
  let report ← fileSystem.run input
  for text in report.printed do
    IO.print text
  for line in report.logged ++ report.errors do
    IO.eprintln line
  return report.exitStatus.toUInt32

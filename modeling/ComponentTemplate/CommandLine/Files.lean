import ComponentTemplate.Format
import ComponentTemplate.Text.Split

/-!
# Files

What the program does with the files that it formats, and what it asks its surroundings for. Which
file a path leads to, what a walk comes to, what reading and writing give and in which order the
work on several files goes on is up to the surroundings.
-/

namespace ComponentTemplate

/-! ## Paths -/

/-- The names in a path, which slashes separate. -/
def pathNames (path : String) : List String :=
  (Text.splitAtChar '/' path.toList).map String.ofList

/-- **The name of the file that a path is that of**: its last name, if slashes at the end and names
that stay in place are left out. A path that ends by going up has none. -/
def fileName? (path : String) : Option String :=
  ((pathNames path).filter fun name => name ≠ "" && name ≠ ".").getLast?.filter (· ≠ "..")

/-- The extension of a file name: what follows its last point, unless the point comes
first. -/
def extension? (name : String) : Option String :=
  match Text.cutAt? '.' name.toList.reverse with
  | none => none
  | some (_, []) => none
  | some (after, _ :: _) => some (String.ofList after.reverse)

/-- The extensions of templates. -/
def templateExtensions : List String :=
  ["zvelte", "twig"]

/-- **Whether a path is that of a template**, by its extension. -/
def isTemplate (path : String) : Bool :=
  ((fileName? path).bind extension?).any templateExtensions.contains

/-! ## The work on a file -/

/-- Why a file cannot be read or written. -/
inductive AccessFailure where
  | missing
  | notADirectory
  | isADirectory
  | nameTooLong
  | denied
  | notText
  deriving DecidableEq, Repr

/-- The text that the operating system has for a failure. -/
def AccessFailure.message : AccessFailure → String
  | .missing => "No such file or directory (os error 2)"
  | .notADirectory => "Not a directory (os error 20)"
  | .isADirectory => "Is a directory (os error 21)"
  | .nameTooLong => "File name too long (os error 36)"
  | .denied => "Permission denied (os error 13)"
  | .notText => "stream did not contain valid UTF-8"

/-- Why a file is not formatted. -/
inductive FileFailure where
  | unreadable (reason : AccessFailure)
  | unformattable (diagnostic : Diagnostic)
  | unwritable (reason : AccessFailure)
  deriving DecidableEq, Repr

/-- The message about a file that is not formatted: what was tried, and why it failed. -/
def FileFailure.message (path : String) : FileFailure → String
  | .unreadable reason => "reading " ++ path ++ ": " ++ reason.message
  | .unformattable diagnostic => "formatting " ++ path ++ ": " ++ diagnostic.message
  | .unwritable reason => "writing " ++ path ++ ": " ++ reason.message

/-- The text of a file before and after it is formatted. -/
structure Formatted where
  before : String
  after : String
  deriving DecidableEq, Repr

/-- Whether formatting changes a text. -/
def Formatted.isChanged (text : Formatted) : Bool :=
  text.after ≠ text.before

/-- **What is done with formatted text**: print it, write it back, or only compare it. -/
inductive Mode where
  | print
  | write
  | check
  deriving DecidableEq, Repr

/-- **The work that is left on one file**: to read it, to write it, or none any more. What reading
or writing gives decides on the rest. -/
inductive Task where
  | read (next : Except AccessFailure String → Task)
  | write (content : String) (next : Except AccessFailure Unit → Task)
  | done (result : Except FileFailure Formatted)

/-- What formatting gives for the content of a file. -/
def FormatOptions.formatted (options : FormatOptions) (content : Except AccessFailure String) :
    Except FileFailure Formatted := do
  let before ← content.mapError .unreadable
  let after ← (formatSource options before).mapError .unformattable
  return ⟨before, after⟩

/-- **Format a file**: read it, and write it back if this is asked for and changes it. -/
def Task.format (options : FormatOptions) (mode : Mode) : Task :=
  .read fun content =>
    match options.formatted content with
    | .error failure => .done (.error failure)
    | .ok text =>
      if mode = .write && text.isChanged then
        .write text.after fun outcome =>
          match outcome with
          | .ok () => .done (.ok text)
          | .error reason => .done (.error (.unwritable reason))
      else .done (.ok text)

/-! ## The surroundings -/

/-- How the file that a path leads to is read and written. -/
structure FileAccess (m : Type → Type) where
  read : String → m (Except AccessFailure String)
  write : String → String → m (Except AccessFailure Unit)

/-- **What the program asks its surroundings for**: beside reading and writing, whether a path is
that of a file, the paths that a walk from a path comes to, and to carry out tasks on the files at
given paths, with their results in the same order. -/
structure FileSystem (m : Type → Type) extends FileAccess m where
  isFile : String → m Bool
  walk : String → m (List String)
  carryOut : List (String × Task) → m (List (Except FileFailure Formatted))

section Operations

variable {m : Type → Type} [Monad m]

/-- Take the next step of a task. -/
def Task.step (access : FileAccess m) (path : String) : Task → m Task
  | .read next => next <$> access.read path
  | .write content next => next <$> access.write path content
  | .done result => pure (.done result)

/-- Carry out a task to its end. -/
def Task.perform (access : FileAccess m) (path : String) :
    Task → m (Except FileFailure Formatted)
  | .read next => do (next (← access.read path)).perform access path
  | .write content next => do (next (← access.write path content)).perform access path
  | .done result => pure result

/-- Carry out tasks one after another. -/
def FileAccess.inOrder (access : FileAccess m) (tasks : List (String × Task)) :
    m (List (Except FileFailure Formatted)) :=
  tasks.mapM fun task => task.2.perform access task.1

/-- **The paths of the templates that a path leads to**: the path itself if it is that of a
file, or else those of files that a walk comes to. -/
def FileSystem.collect (system : FileSystem m) (path : String) : m (List String) := do
  if ← system.isFile path then return [path].filter isTemplate
  else
    (← system.walk path).filterM fun found => return (← system.isFile found) && isTemplate found

end Operations

end ComponentTemplate

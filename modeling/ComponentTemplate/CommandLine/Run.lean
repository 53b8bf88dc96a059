import ComponentTemplate.CommandLine.Arguments
import ComponentTemplate.CommandLine.Directory
import ComponentTemplate.Dump.Component

/-!
# Running commands

A command is run in its surroundings, and gives a report: what to print, what to log, and how to
exit.
-/

namespace ComponentTemplate

/-- A text that is written to the file at a path. -/
structure SourceFile where
  path : String
  content : String
  deriving DecidableEq, Repr

/-- **The effects of a command**: the exit status, the texts printed, the records logged, the
texts printed as errors with a line feed after each, and the files written, in order. -/
structure Report where
  exitStatus : Nat := 0
  printed : List String := []
  logged : List String := []
  errors : List String := []
  written : List SourceFile := []
  deriving DecidableEq, Repr

def versionText : String :=
  "zvelte-fmt 0.1.0\n"

/-- **The text that the program prints when asked for help.** -/
def HelpTopic.text : HelpTopic → String
  | .program =>
    "Formatter for Zvelte templates\n\nUsage: zvelte-fmt <COMMAND>\n\nCommands:\n" ++
      "  fmt    \n  debug  \n" ++
      "  help   Print this message or the help of the given subcommand(s)\n\nOptions:\n" ++
      "  -h, --help     Print help\n  -V, --version  Print version\n"
  | .format =>
    "Usage: zvelte-fmt fmt [OPTIONS] [PATHS]...\n\nArguments:\n" ++
      "  [PATHS]...  Paths (files or directories) to format (defaults to current dir)\n\n" ++
      "Options:\n" ++
      "      --write                      Write the formatted content back to the files\n" ++
      "      --check                      Check if files are formatted; non-zero exit if " ++
      "changes needed\n" ++
      "      --indent <INDENT>            Indent with this many spaces instead of tabs\n" ++
      "      --special-tag <SPECIAL_TAG>  Prefix of special elements, e.g. `zone` for " ++
      "`<zone:head>`\n" ++
      "  -h, --help                       Print help\n"
  | .dump =>
    "Usage: zvelte-fmt debug [OPTIONS] <FILE>\n\nArguments:\n" ++
      "  <FILE>  File to debug\n\nOptions:\n" ++
      "      --special-tag <SPECIAL_TAG>  Prefix of special elements\n" ++
      "  -h, --help                       Print help\n"

def fileHeader (path : String) : String :=
  "===== " ++ path ++ " =====\n"

/-- The texts that report an error with its cause. Every line of the cause is indented. -/
def causeLines (error cause : String) : List String :=
  ["Error: " ++ error, "", "Caused by:"] ++
    (Text.splitAtChar '\n' cause.toList).map fun line => "    " ++ String.ofList line

/-- The report of a command that is asked both to write and to compare: it does neither. -/
def Report.conflict : Report :=
  { exitStatus := 1, errors := ["Error: --write and --check are mutually exclusive"] }

/-- A character of a log record. The characters that steer a terminal are shown by their
codes; a line feed is none of them. -/
def logChar (c : Char) : List Char :=
  let code := Nat.toDigits 16 c.toNat
  if c ∈ ['\x07', '\x08', '\x0c', '\x1b', '\x7f'] then
    ['\\', 'x'] ++ List.replicate (2 - code.length) '0' ++ code
  else if 0x80 ≤ c.toNat ∧ c.toNat ≤ 0x9F then "\\u\x7b".toList ++ code ++ "\x7d".toList
  else [c]

/-- **A log record**: its level, the program and the message. -/
def logRecord (level message : String) : String :=
  level ++ " zvelte_fmt: " ++ String.ofList (message.toList.flatMap logChar)

/-- **What formatting a file gave**: its text before and after, or why it failed. -/
structure FileOutcome where
  path : String
  result : Except FileFailure Formatted

namespace FileOutcome

/-- Whether the command fails because of a file: it cannot be formatted or, if files are only
compared, it is not in its formatted form. -/
def fails (mode : Mode) (outcome : FileOutcome) : Bool :=
  match outcome.result with
  | .ok text => mode = .check && text.isChanged
  | .error _ => true

def printed? (mode : Mode) (outcome : FileOutcome) : Option String :=
  match mode, outcome.result with
  | .print, .ok text => some (fileHeader outcome.path ++ text.after)
  | _, _ => none

def logged? (mode : Mode) (outcome : FileOutcome) : Option String :=
  match outcome.result with
  | .error failure => some (logRecord "ERROR" (failure.message outcome.path))
  | .ok text =>
    if mode = .check && text.isChanged then
      some (logRecord "WARN" (outcome.path ++ " needs formatting"))
    else none

def written? (mode : Mode) (outcome : FileOutcome) : Option SourceFile :=
  match outcome.result with
  | .ok text =>
    if mode = .write && text.isChanged then some ⟨outcome.path, text.after⟩ else none
  | .error _ => none

end FileOutcome

/-- **The report of formatted files.** -/
def Report.ofOutcomes (mode : Mode) (outcomes : List FileOutcome) : Report :=
  { exitStatus := if outcomes.any (·.fails mode) then 1 else 0
    printed := outcomes.filterMap (·.printed? mode)
    logged := outcomes.filterMap (·.logged? mode)
    written := outcomes.filterMap (·.written? mode) }

/-- **Show the tree of a file.** -/
def dumpFile (specialTag : Option String) (path : String)
    (content : Except AccessFailure String) : Report :=
  match content with
  | .error failure =>
    { exitStatus := 1, errors := causeLines ("reading " ++ path) failure.message }
  | .ok content =>
    match Component.parse content (specialTag.getD defaultSpecialTag) with
    | .error diagnostic =>
      { exitStatus := 1, errors := causeLines ("parsing " ++ path) diagnostic.message }
    | .ok component => { printed := [fileHeader path ++ component.dump.render ++ "\n"] }

namespace FormatArguments

def mode? (arguments : FormatArguments) : Option Mode :=
  match arguments.write, arguments.check with
  | true, true => none
  | true, false => some .write
  | false, true => some .check
  | false, false => some .print

def options (arguments : FormatArguments) : FormatOptions :=
  { useTabs := arguments.indent.isNone
    indentWidth := arguments.indent.getD 4
    specialTag := arguments.specialTag }

/-- The paths to format. -/
def targets (arguments : FormatArguments) : List String :=
  if arguments.paths.isEmpty then ["."] else arguments.paths

end FormatArguments

def Interrupt.report : Interrupt → Report
  | .help topic => { printed := [topic.text] }
  | .version => { printed := [versionText] }
  | .usage error => { exitStatus := 2, errors := ["error: " ++ error.message] }

namespace FileSystem

variable {m : Type → Type} [Monad m]

/-- **The command that formats.** All files are found before the first one is formatted. -/
def format (system : FileSystem m) (arguments : FormatArguments) : m Report := do
  match arguments.mode? with
  | none => return .conflict
  | some mode =>
    let paths := (← arguments.targets.mapM system.collect).flatten
    let results ← system.carryOut (paths.map fun path => (path, .format arguments.options mode))
    return .ofOutcomes mode (List.zipWith FileOutcome.mk paths results)

/-- **Run a command line.** -/
def run (system : FileSystem m) (input : List String) : m Report := do
  match Command.parse input with
  | .error interrupt => return interrupt.report
  | .ok (.format arguments) => system.format arguments
  | .ok (.dump file specialTag) => return dumpFile specialTag file (← system.read file)

end FileSystem

namespace Directory

/-- **The report of a command line** that is run in a directory. -/
def run (directory : Directory) (input : List String) : Report :=
  ((system.run input).run directory).1

/-- A directory with the files of a report written. -/
def after (directory : Directory) (report : Report) : Directory :=
  report.written.foldl (fun directory file => directory.write file.path file.content) directory

end Directory

end ComponentTemplate

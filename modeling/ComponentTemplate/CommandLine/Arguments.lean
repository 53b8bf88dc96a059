/-!
# Arguments of the command line
-/

namespace ComponentTemplate

structure FormatArguments where
  paths : List String := []
  write : Bool := false
  check : Bool := false
  indent : Option Nat := none
  specialTag : Option String := none
  deriving DecidableEq, Repr

structure DumpArguments where
  file : Option String := none
  specialTag : Option String := none
  deriving DecidableEq, Repr

/-- **What the program is asked to do**: format files, or show the tree of one file. -/
inductive Command where
  | format (arguments : FormatArguments)
  | dump (file : String) (specialTag : Option String)
  deriving DecidableEq, Repr

inductive UsageError where
  | missingCommand
  | unknownCommand (name : String)
  | unknownOption (option : String)
  | repeatedOption (option : String)
  | unexpectedValue (option : String)
  | missingValue (option : String)
  | invalidNumber (option value : String)
  | emptyPath
  | missingFile
  | unexpectedArgument (argument : String)
  deriving DecidableEq, Repr

def UsageError.message : UsageError → String
  | .missingCommand => "a command is required: fmt or debug"
  | .unknownCommand name => "unrecognized subcommand '" ++ name ++ "'"
  | .unknownOption option => "unexpected argument '" ++ option ++ "' found"
  | .repeatedOption option => "the argument '" ++ option ++ "' cannot be used multiple times"
  | .unexpectedValue option => "unexpected value for '" ++ option ++ "' found"
  | .missingValue option => "a value is required for '" ++ option ++ "'"
  | .invalidNumber option value => "invalid value '" ++ value ++ "' for '" ++ option ++ "'"
  | .emptyPath => "a path must not be empty"
  | .missingFile => "a file is required"
  | .unexpectedArgument argument => "unexpected argument '" ++ argument ++ "' found"

inductive HelpTopic where
  | program
  | format
  | dump
  deriving DecidableEq, Repr

inductive Interrupt where
  | help (topic : HelpTopic)
  | version
  | usage (error : UsageError)
  deriving DecidableEq, Repr

/-- An argument that is an option, an option with its value, or anything else. The argument
that ends the options is none of the first two. -/
inductive ArgumentShape where
  | long (name : String) (value : Option String)
  | short (letter : Char)
  | endOfOptions
  | positional
  deriving DecidableEq, Repr

def argumentShape (argument : String) : ArgumentShape :=
  match argument.toList with
  | ['-', '-'] => .endOfOptions
  | '-' :: '-' :: option =>
    let name := option.takeWhile (· ≠ '=')
    let value := (option.dropWhile (· ≠ '=')).drop 1
    .long (String.ofList name)
      (if name.length < option.length then some (String.ofList value) else none)
  | '-' :: letter :: _ => .short letter
  | _ => .positional

/-- A count of at most sixty-four bits: decimal digits, perhaps after a plus sign. -/
def parseCount? (text : String) : Option Nat :=
  let digits := match text.toList with
    | '+' :: digits => digits
    | digits => digits
  let value := digits.foldl (fun n c => 10 * n + (c.toNat - '0'.toNat)) 0
  if digits.isEmpty || !digits.all Char.isDigit || Nat.pow 2 64 ≤ value then none else some value

def unknownOption (topic : HelpTopic) (argument : String) (shape : ArgumentShape) : Interrupt :=
  match shape with
  | .long "help" none => .help topic
  | .short 'h' => .help topic
  | _ => .usage (.unknownOption argument)

/-- The value of an option: the one after its equals sign, or else the next argument, which
must not be an option. Gives the arguments after the value too. -/
def optionValue (name : String) (value : Option String) (rest : List String) :
    Except Interrupt (String × List String) :=
  match value, rest with
  | some value, rest => .ok (value, rest)
  | none, next :: rest =>
    if argumentShape next = .positional then .ok (next, rest)
    else .error (.usage (.missingValue name))
  | none, [] => .error (.usage (.missingValue name))

theorem optionValue_shorter {name : String} {value : Option String} {rest after : List String}
    {found : String} (h : optionValue name value rest = .ok (found, after)) :
    after.length ≤ rest.length := by
  unfold optionValue at h
  split at h
  · cases h; exact Nat.le_refl _
  · split at h
    · cases h; simp
    · cases h
  · cases h

def setFlag (name : String) (value : Option String) (isSet : Bool) : Except Interrupt Unit :=
  if value.isSome then .error (.usage (.unexpectedValue name))
  else if isSet then .error (.usage (.repeatedOption name))
  else .ok ()

def checkPath (path : String) : Except Interrupt String :=
  if path = "" then .error (.usage .emptyPath) else .ok path

namespace FormatArguments

def addPath (arguments : FormatArguments) (path : String) :
    Except Interrupt FormatArguments := do
  return { arguments with paths := arguments.paths ++ [← checkPath path] }

/-- **The arguments of the command that formats**, after those already read. -/
def parse (arguments : FormatArguments) (input : List String) :
    Except Interrupt FormatArguments :=
  match input with
  | [] => .ok arguments
  | argument :: rest =>
    match argumentShape argument with
    | .positional => do parse (← arguments.addPath argument) rest
    | .endOfOptions => rest.foldlM addPath arguments
    | .long "write" value => do
      setFlag "--write" value arguments.write
      parse { arguments with write := true } rest
    | .long "check" value => do
      setFlag "--check" value arguments.check
      parse { arguments with check := true } rest
    | .long "indent" value =>
      match _h : optionValue "--indent" value rest with
      | .error interrupt => .error interrupt
      | .ok (text, after) =>
        match parseCount? text with
        | none => .error (.usage (.invalidNumber "--indent" text))
        | some n =>
          if arguments.indent.isSome then .error (.usage (.repeatedOption "--indent"))
          else parse { arguments with indent := some n } after
    | .long "special-tag" value =>
      match _h : optionValue "--special-tag" value rest with
      | .error interrupt => .error interrupt
      | .ok (text, after) =>
        if arguments.specialTag.isSome then .error (.usage (.repeatedOption "--special-tag"))
        else parse { arguments with specialTag := some text } after
    | shape => .error (unknownOption .format argument shape)
termination_by input.length
decreasing_by
  all_goals simp only [List.length_cons]
  all_goals try omega
  all_goals have := optionValue_shorter _h
  all_goals omega

end FormatArguments

namespace DumpArguments

def addFile (arguments : DumpArguments) (path : String) : Except Interrupt DumpArguments := do
  if arguments.file.isSome then throw (.usage (.unexpectedArgument path))
  return { arguments with file := some (← checkPath path) }

/-- **The arguments of the command that shows a tree**, after those already read. -/
def parse (arguments : DumpArguments) (input : List String) :
    Except Interrupt DumpArguments :=
  match input with
  | [] => .ok arguments
  | argument :: rest =>
    match argumentShape argument with
    | .positional => do parse (← arguments.addFile argument) rest
    | .endOfOptions => rest.foldlM addFile arguments
    | .long "special-tag" value =>
      match _h : optionValue "--special-tag" value rest with
      | .error interrupt => .error interrupt
      | .ok (text, after) =>
        if arguments.specialTag.isSome then .error (.usage (.repeatedOption "--special-tag"))
        else parse { arguments with specialTag := some text } after
    | shape => .error (unknownOption .dump argument shape)
termination_by input.length
decreasing_by
  all_goals simp only [List.length_cons]
  all_goals try omega
  all_goals have := optionValue_shorter _h
  all_goals omega

end DumpArguments

/-- **The command that arguments write.** -/
def Command.parse (input : List String) : Except Interrupt Command :=
  match input with
  | [] => .error (.usage .missingCommand)
  | "fmt" :: rest => do return .format (← FormatArguments.parse {} rest)
  | "debug" :: rest => do
    let arguments ← DumpArguments.parse {} rest
    match arguments.file with
    | some file => return .dump file arguments.specialTag
    | none => throw (.usage .missingFile)
  | "help" :: rest =>
    match rest with
    | [] | ["help"] => .error (.help .program)
    | ["fmt"] => .error (.help .format)
    | ["debug"] => .error (.help .dump)
    | name :: _ => .error (.usage (.unknownCommand name))
  | argument :: _ =>
    match argumentShape argument with
    | .positional => .error (.usage (.unknownCommand argument))
    | .endOfOptions => .error (.usage .missingCommand)
    | .long "version" none => .error .version
    | .short 'V' => .error .version
    | shape => .error (unknownOption .program argument shape)

end ComponentTemplate

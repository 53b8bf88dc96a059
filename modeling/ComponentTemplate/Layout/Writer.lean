/-!
# Writers

A writer collects the output. Nothing else writes indentation: text that starts a line is
indented by the level that is in force.
-/

namespace ComponentTemplate

/-- **The state of the output**: the indentation that one level stands for, the number of
levels in force, and the characters written, the last one first. -/
structure Writer where
  unit : List Char
  level : Nat
  written : List Char
  deriving DecidableEq, Repr

namespace Writer

/-- A writer that has written nothing. -/
def start (unit : String) : Writer :=
  ⟨unit.toList, 0, []⟩

/-- The text that is written. -/
def output (w : Writer) : String :=
  String.ofList w.written.reverse

/-- The indentation of the levels in force. -/
def indentation (w : Writer) : List Char :=
  (List.replicate w.level w.unit).flatten

/-- Whether what is written next starts a line. -/
def atLineStart (w : Writer) : Bool :=
  w.written.head? = some '\n'

/-- **Write a text.** It is indented if it starts a line, unless it starts with a line feed
itself: empty lines stay empty. -/
def add (w : Writer) (text : List Char) : Writer :=
  match text with
  | [] => w
  | c :: _ =>
    -- only the start of the text is looked at: line feeds inside it are not followed by blanks
    let indent := if w.atLineStart && c ≠ '\n' then w.indentation else []
    { w with written := text.reverse ++ (indent.reverse ++ w.written) }

/-- The writer with one level more in force. -/
def indent (w : Writer) : Writer :=
  { w with level := w.level + 1 }

/-- The writer with one level less in force, if there is one. -/
def dedent? (w : Writer) : Option Writer :=
  match w.level with
  | 0 => none
  | level + 1 => some { w with level }

@[simp]
theorem level_add (w : Writer) (text : List Char) : (w.add text).level = w.level := by
  cases text <;> rfl

@[simp]
theorem unit_add (w : Writer) (text : List Char) : (w.add text).unit = w.unit := by
  cases text <;> rfl

@[simp]
theorem level_indent (w : Writer) : w.indent.level = w.level + 1 := rfl

end Writer

/-- **What a writer is told to do.** -/
inductive Step where
  | add (text : String)
  | indent
  | dedent
  deriving DecidableEq, Repr

namespace Writer

/-- **One step of a writer.** It fails below the left margin. -/
def step? (w : Writer) : Step → Option Writer
  | .add text => some (w.add text.toList)
  | .indent => some w.indent
  | .dedent => w.dedent?

end Writer

end ComponentTemplate

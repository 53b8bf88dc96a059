import ComponentTemplate.Component.Parser
import ComponentTemplate.Component.Printer
import ComponentTemplate.Script.Reindent
import ComponentTemplate.Source.LineBreaks

/-!
# Formatting

Formatting reads a component and prints it again in one canonical form.
-/

namespace ComponentTemplate

/-- **The choices that a user has.** -/
structure FormatOptions where
  /-- Indent with tabs, and not with `indentWidth` spaces. -/
  useTabs : Bool := true
  indentWidth : Nat := 4
  /-- The first part of the names of special elements, if not the usual one. -/
  specialTag : Option String := none
  /-- End the output with a line feed. -/
  finalNewline : Bool := true
  deriving DecidableEq, Repr

def FormatOptions.indentUnit (options : FormatOptions) : String :=
  if options.useTabs then "\t" else String.ofList (List.replicate options.indentWidth ' ')

/-- The first part of the names of special elements. -/
def FormatOptions.specialPart (options : FormatOptions) : String :=
  options.specialTag.getD defaultSpecialTag

def reindentScript (code : String) : String :=
  String.ofList (reindent code.toList)

/-- **Format a source text**, with the first part of the names of special elements, the text
of one level of indentation, and the formatter of foreign scripts. -/
def formatWith (special unit : String) (script : String → String) (source : String) :
    Except Diagnostic String :=
  let chars := source.toList
  let printed : Except Failure String := do
    let component ← Component.ofChars special chars
    let sheet ← component.stylesheet chars
    return (component.doc ⟨(LineBreaks.ofSource chars).atLeast, script⟩ sheet).render unit
  printed.mapError (·.toDiagnostic chars)

section FormatWith

variable {special unit source : String} {script : String → String} {component : Component}

theorem formatWith_of_ofChars_eq_error {failure : Failure}
    (h : Component.ofChars special source.toList = .error failure) :
    formatWith special unit script source = .error (failure.toDiagnostic source.toList) := by
  rw [formatWith, h]
  rfl

theorem formatWith_of_stylesheet_eq_error {failure : Failure}
    (hcomponent : Component.ofChars special source.toList = .ok component)
    (h : component.stylesheet source.toList = .error failure) :
    formatWith special unit script source = .error (failure.toDiagnostic source.toList) := by
  simp only [formatWith, hcomponent, bind, Except.bind, h]
  rfl

theorem formatWith_of_eq_ok {sheet : List StyleNode}
    (hcomponent : Component.ofChars special source.toList = .ok component)
    (hsheet : component.stylesheet source.toList = .ok sheet) :
    formatWith special unit script source = .ok
      ((component.doc ⟨(LineBreaks.ofSource source.toList).atLeast, script⟩ sheet).render unit) := by
  simp only [formatWith, hcomponent, bind, Except.bind, hsheet]
  rfl

end FormatWith

def format (special source : String) : Except Diagnostic String :=
  formatWith special "\t" reindentScript source

/-- **Format a source text by options.** Empty output stays empty. -/
def formatSource (options : FormatOptions) (source : String) : Except Diagnostic String := do
  let output ← formatWith options.specialPart options.indentUnit reindentScript source
  return if options.finalNewline && output ≠ "" then output ++ "\n" else output

structure TextEdit where
  range : Range
  newText : String
  deriving DecidableEq, Repr

def formatDocument (options : FormatOptions) (source : String) : Except Diagnostic TextEdit := do
  let newText ← formatSource options source
  return ⟨Range.ofDocument source.toList, newText⟩

/-- The outcomes of formatting a text, then the output, and so on, for a number of passes or
up to the first failure. -/
def formatRepeatedly (options : FormatOptions) :
    (times : Nat) → (source : String) → List (Except Diagnostic (String × Bool))
  | 0, _ => []
  | times + 1, source =>
    match formatSource options source with
    | .error diagnostic => [.error diagnostic]
    | .ok output =>
      .ok (output, output ≠ source) :: formatRepeatedly options times output

end ComponentTemplate
